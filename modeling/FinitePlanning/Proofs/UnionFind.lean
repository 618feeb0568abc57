import Mathlib.Logic.Relation
import FinitePlanning.UnionFind

/-!
The sets of a union-find structure. The root of a number is where its parents lead; neither adding
numbers nor shortening the paths on a search changes a root. So uniting the sets of two numbers
joins what was equivalent to one of them with what was equivalent to the other one.
-/

namespace FinitePlanning

/-- An equivalence in which two more elements are equivalent. -/
theorem eqvGen_extend_iff {α : Type*} {r : α → α → Prop} {a b x y : α} :
    Relation.EqvGen (fun x y => r x y ∨ x = a ∧ y = b) x y ↔
      Relation.EqvGen r x y ∨ (Relation.EqvGen r x a ∧ Relation.EqvGen r b y) ∨
        (Relation.EqvGen r x b ∧ Relation.EqvGen r a y) := by
  have hmono : ∀ {x y}, Relation.EqvGen r x y →
      Relation.EqvGen (fun x y => r x y ∨ x = a ∧ y = b) x y :=
    fun h => h.mono fun _ _ => .inl
  have hnew : Relation.EqvGen (fun x y => r x y ∨ x = a ∧ y = b) a b := .rel _ _ (.inr ⟨rfl, rfl⟩)
  constructor
  · intro h
    induction h with
    | rel x y h =>
        rcases h with h | ⟨rfl, rfl⟩
        · exact .inl (.rel _ _ h)
        · exact .inr (.inl ⟨.refl _, .refl _⟩)
    | refl x => exact .inl (.refl x)
    | symm x y _ ih =>
        exact ih.imp (.symm _ _) (Or.symm ∘
          Or.imp (fun h => ⟨h.2.symm _ _, h.1.symm _ _⟩) fun h => ⟨h.2.symm _ _, h.1.symm _ _⟩)
    | trans x y z _ _ ih₁ ih₂ =>
        rcases ih₁ with h₁ | ⟨h₁, h₁'⟩ | ⟨h₁, h₁'⟩ <;> rcases ih₂ with h₂ | ⟨h₂, h₂'⟩ | ⟨h₂, h₂'⟩
        · exact .inl (h₁.trans _ _ _ h₂)
        · exact .inr (.inl ⟨h₁.trans _ _ _ h₂, h₂'⟩)
        · exact .inr (.inr ⟨h₁.trans _ _ _ h₂, h₂'⟩)
        · exact .inr (.inl ⟨h₁, h₁'.trans _ _ _ h₂⟩)
        · exact .inr (.inl ⟨h₁, h₂'⟩)
        · exact .inl (h₁.trans _ _ _ h₂')
        · exact .inr (.inr ⟨h₁, h₁'.trans _ _ _ h₂⟩)
        · exact .inl (h₁.trans _ _ _ h₂')
        · exact .inr (.inr ⟨h₁, h₂'⟩)
  · rintro (h | ⟨hx, hy⟩ | ⟨hx, hy⟩)
    · exact hmono h
    · exact (hmono hx).trans _ _ _ (hnew.trans _ _ _ (hmono hy))
    · exact (hmono hx).trans _ _ _ ((hnew.symm _ _).trans _ _ _ (hmono hy))

namespace UnionFind

variable {u v : UnionFind} {a b i j p : Nat}

/-- Where the parents of a number lead. -/
def root (u : UnionFind) (i : Nat) : Nat :=
  if h : u.parent i = i then i
  else
    have := Nat.lt_of_le_of_ne (u.parent_le i) h
    u.root (u.parent i)
termination_by i

theorem root_eq_self (h : u.parent i = i) : u.root i = i := by
  rw [root, dif_pos h]

theorem root_parent (u : UnionFind) (i : Nat) : u.root (u.parent i) = u.root i := by
  by_cases h : u.parent i = i
  · rw [h]
  · conv => rhs; rw [root, dif_neg h]

theorem root_le (u : UnionFind) (i : Nat) : u.root i ≤ i := by
  fun_induction u.root i with
  | case1 => exact Nat.le_refl _
  | case2 i _ _ ih => exact Nat.le_trans ih (u.parent_le i)

theorem parent_root (u : UnionFind) (i : Nat) : u.parent (u.root i) = u.root i := by
  fun_induction u.root i with
  | case1 _ h => exact h
  | case2 _ _ _ ih => exact ih

theorem root_root (u : UnionFind) (i : Nat) : u.root (u.root i) = u.root i :=
  root_eq_self (u.parent_root i)

/-- Roots do not depend on the paths to them. -/
theorem root_eq_of_parents {ρ : Nat → Nat} (hparent : ∀ i, ρ (u.parent i) = ρ i)
    (hroot : ∀ i, u.parent i = i → ρ i = i) (i : Nat) : u.root i = ρ i := by
  fun_induction u.root i with
  | case1 i h => exact (hroot i h).symm
  | case2 i _ _ ih => rw [ih, hparent]

theorem parent_eq_self_of_size_le (h : u.size ≤ i) : u.parent i = i := by
  rw [parent, Array.getD_eq_getD_getElem?, Array.getElem?_eq_none h, Option.getD_none]

theorem lt_size_of_parent_ne (h : u.parent i ≠ i) : i < u.size :=
  Nat.lt_of_not_le fun hi => h (parent_eq_self_of_size_le hi)

/-! ### Operations -/

@[simp] theorem size_ofSize (n : Nat) : (ofSize n).size = n := Array.size_range

@[simp] theorem size_grow : u.grow.size = u.size + 1 := Array.size_push ..

@[simp] theorem size_setParent (h : p ≤ i) : (u.setParent i p h).size = u.size :=
  Array.size_setIfInBounds

@[simp] theorem parent_grow : u.grow.parent i = u.parent i := by
  rw [parent, grow, Array.getD_eq_getD_getElem?, Array.getElem?_push]
  split
  next h =>
    rw [parent_eq_self_of_size_le (Nat.le_of_eq h.symm)]
    exact h.symm
  next => exact Array.getD_eq_getD_getElem?.symm

theorem parent_setParent (h : p ≤ i) (hi : i < u.size) :
    (u.setParent i p h).parent j = if i = j then p else u.parent j := by
  rw [parent, setParent, Array.getD_eq_getD_getElem?, Array.getElem?_setIfInBounds]
  split
  next => rw [if_pos (show i < u.parents.size from hi), Option.getD_some]
  next => exact Array.getD_eq_getD_getElem?.symm

@[simp] theorem root_grow : u.grow.root i = u.root i :=
  root_eq_of_parents (fun i => by rw [parent_grow, root_parent])
    (fun _ h => root_eq_self (parent_grow ▸ h)) i

/-- A parent may be replaced by what is closer to the same root. -/
theorem root_setParent (h : p ≤ i) (hi : i < u.size) (hp : u.root p = u.root i)
    (hself : p = i → u.parent i = i) : (u.setParent i p h).root j = u.root j := by
  refine root_eq_of_parents (fun k => ?_) (fun k hk => ?_) j
  · rw [parent_setParent h hi]
    split
    next hik => rw [hp, hik]
    next => exact u.root_parent k
  · rw [parent_setParent h hi] at hk
    split at hk
    next hik =>
      subst hik
      exact root_eq_self (hself hk)
    next => exact root_eq_self hk

/-- A search finds the root, and keeps all roots. -/
theorem find_spec (u : UnionFind) (i : Nat) :
    (u.find i).1 = u.root i ∧ (u.find i).2.size = u.size ∧ ∀ j, (u.find i).2.root j = u.root j := by
  fun_induction u.find i with
  | case1 u i h => exact ⟨(root_eq_self h).symm, rfl, fun _ => rfl⟩
  | case2 u i h hlt ih =>
      have hroot : ∀ j, (u.setParent i (u.parent (u.parent i)) (Nat.le_of_lt hlt)).root j =
          u.root j := fun j => root_setParent _ (lt_size_of_parent_ne h)
        ((u.root_parent _).trans (u.root_parent i)) fun he => absurd he (Nat.ne_of_lt hlt)
      obtain ⟨hfound, hsize, hkept⟩ := ih
      refine ⟨?_, hsize.trans (size_setParent _), fun j => (hkept j).trans (hroot j)⟩
      rw [hfound, hroot, root_parent, root_parent]

@[simp] theorem find_fst : (u.find i).1 = u.root i := (u.find_spec i).1

@[simp] theorem size_find : (u.find i).2.size = u.size := (u.find_spec i).2.1

@[simp] theorem root_find : (u.find i).2.root j = u.root j := (u.find_spec i).2.2 j

theorem roots_eq (u : UnionFind) (is : List Nat) : u.roots is = is.map u.root := by
  induction is generalizing u with
  | nil => rfl
  | cons i rest ih =>
      have hcons : u.roots (i :: rest) = (u.find i).1 :: (u.find i).2.roots rest := rfl
      rw [hcons, ih, find_fst, List.map_cons]
      exact congrArg (u.root i :: ·) (List.map_congr_left fun _ _ => root_find)

/-- A root that gets another one for its parent loses its set to it. -/
theorem root_link (hp : p < i) (hi : i < u.size) (hroot : u.root i = i) (hproot : u.root p = p) :
    (u.setParent i p (Nat.le_of_lt hp)).root j = if u.root j = i then p else u.root j := by
  refine root_eq_of_parents (ρ := fun j => if u.root j = i then p else u.root j)
    (fun k => ?_) (fun k hk => ?_) j
  · rw [parent_setParent _ hi]
    split
    next hik =>
      subst hik
      rw [hroot, hproot, if_pos rfl, if_neg (Nat.ne_of_lt hp)]
    next => rw [root_parent]
  · rw [parent_setParent _ hi] at hk
    split at hk
    next hik => exact absurd (hk.trans hik.symm) (Nat.ne_of_lt hp)
    next hik =>
      rw [root_eq_self hk, if_neg fun he => hik he.symm]

theorem size_unite : (u.unite a b).size = u.size := by
  simp only [unite]
  split <;> simp

/-- The larger one of two roots is replaced by the smaller one. -/
theorem root_unite (ha : a < u.size) (hb : b < u.size) : (u.unite a b).root j =
    if u.root j = max (u.root a) (u.root b) then min (u.root a) (u.root b) else u.root j := by
  have hlt : max (u.root a) (u.root b) < u.size :=
    Nat.max_lt.mpr ⟨Nat.lt_of_le_of_lt (u.root_le a) ha, Nat.lt_of_le_of_lt (u.root_le b) hb⟩
  simp only [unite, find_fst, root_find]
  split
  next he => 
    rw [root_find, root_find, he, Nat.max_self, Nat.min_self]
    split
    next h => exact h
    next => rfl
  next hne =>
    rw [root_link (by omega) (by simpa using hlt), root_find, root_find]
    · rcases Nat.le_total (u.root a) (u.root b) with h | h
      · rw [Nat.max_eq_right h, root_find, root_find, root_root]
      · rw [Nat.max_eq_left h, root_find, root_find, root_root]
    · rcases Nat.le_total (u.root a) (u.root b) with h | h
      · rw [Nat.min_eq_left h, root_find, root_find, root_root]
      · rw [Nat.min_eq_right h, root_find, root_find, root_root]

/-- Uniting two sets joins what was equivalent to one of them with what was equivalent to the other
one, and nothing else. -/
theorem root_unite_eq_iff (ha : a < u.size) (hb : b < u.size) :
    (u.unite a b).root i = (u.unite a b).root j ↔
      u.root i = u.root j ∨ (u.root i = u.root a ∧ u.root b = u.root j) ∨
        (u.root i = u.root b ∧ u.root a = u.root j) := by
  rw [root_unite ha hb, root_unite ha hb]
  split <;> split <;> omega

end UnionFind
end FinitePlanning
