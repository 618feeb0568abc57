/-!
Sets of numbers that are united one after another. A number has a parent that is not larger than
itself, and the least number of each set is its own parent.
-/

namespace FinitePlanning

structure UnionFind where
  parents : Array Nat := #[]
  parent_le : ∀ i, parents.getD i i ≤ i := by exact Nat.le_refl

namespace UnionFind

/-- The first numbers, each in a set of its own. -/
def ofSize (n : Nat) : UnionFind where
  parents := Array.range n
  parent_le i := by
    rw [Array.getD_eq_getD_getElem?, Array.getElem?_range]
    split <;> exact Nat.le_refl i

variable (u : UnionFind)

def size : Nat := u.parents.size

/-- The parent of a number. What has not been added is its own parent. -/
def parent (i : Nat) : Nat := u.parents.getD i i

/-- Adds the next number, in a set of its own. -/
def grow : UnionFind where
  parents := u.parents.push u.size
  parent_le i := by
    rw [Array.getD_eq_getD_getElem?, Array.getElem?_push]
    split
    next h => exact Nat.le_of_eq h.symm
    next => exact Array.getD_eq_getD_getElem? ▸ u.parent_le i

def setParent (i p : Nat) (h : p ≤ i) : UnionFind where
  parents := u.parents.setIfInBounds i p
  parent_le j := by
    rw [Array.getD_eq_getD_getElem?, Array.getElem?_setIfInBounds]
    split
    next hij =>
      subst hij
      split
      · exact h
      · exact Nat.le_refl i
    next => exact Array.getD_eq_getD_getElem? ▸ u.parent_le j

theorem parent_parent_lt {i : Nat} (h : u.parent i ≠ i) : u.parent (u.parent i) < i :=
  Nat.lt_of_le_of_lt (u.parent_le _) (Nat.lt_of_le_of_ne (u.parent_le i) h)

/-- The least number of the set of a number. The numbers that are visited on the way get the parents
of their parents for parents. -/
def find (u : UnionFind) (i : Nat) : Nat × UnionFind :=
  if h : u.parent i = i then (i, u)
  else
    have hlt := u.parent_parent_lt h
    (u.setParent i (u.parent (u.parent i)) (Nat.le_of_lt hlt)).find (u.parent (u.parent i))
termination_by i

/-- Unites the sets of two numbers. -/
def unite (a b : Nat) : UnionFind :=
  let (a, u) := u.find a
  let (b, u) := u.find b
  if a = b then u
  else u.setParent (max a b) (min a b) (Nat.le_trans (Nat.min_le_left a b) (Nat.le_max_left a b))

/-- The least numbers of the sets of several numbers. -/
def roots (u : UnionFind) : List Nat → List Nat
  | [] => []
  | i :: rest =>
    let (root, u) := u.find i
    root :: u.roots rest

end UnionFind
end FinitePlanning
