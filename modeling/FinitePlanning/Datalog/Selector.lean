import FinitePlanning.Datalog.Rule

/-!
Selection of the conditions that an atom may match, by the constant arguments of the conditions. A
selector tests one argument after the other, in the order of their positions.
-/

namespace FinitePlanning
namespace Datalog

mutual

inductive Selector (α : Type) where
  | leaf (entries : List α)
  /-- Has entries that match whatever the arguments are, a branch for each value that the argument
  at `position` is compared with, and entries that do not depend on this argument. -/
  | node (position : Nat) (entries : List α) (branches : Branches α) (next : Selector α)

inductive Branches (α : Type) where
  | empty
  | cons (value : ObjectId) (selector : Selector α) (rest : Branches α)

end

namespace Selector

variable {α : Type}

instance : Inhabited (Selector α) := ⟨.leaf []⟩

/-- The selector of one entry. -/
def chain (entry : α) : List (Nat × ObjectId) → Selector α
  | [] => .leaf [entry]
  | (position, value) :: rest =>
    .node position [] (.cons value (chain entry rest) .empty) (.leaf [])

def withEntries (entries : List α) : Selector α → Selector α
  | .leaf _ => .leaf entries
  | .node position _ branches next => .node position entries branches next

mutual

/-- Adds an entry, given the constant arguments it has to match in the order of their positions. -/
def insert (constants : List (Nat × ObjectId)) (entry : α) : Selector α → Selector α
  | .leaf entries =>
    match constants with
    | [] => .leaf (entries ++ [entry])
    | constants => (chain entry constants).withEntries entries
  | .node position entries branches next =>
    match constants with
    | [] => .node position (entries ++ [entry]) branches next
    | (p, value) :: rest =>
      if position < p then
        .node position entries branches (insert ((p, value) :: rest) entry next)
      else if p < position then
        .node p [] (.cons value (chain entry rest) .empty) (.node position entries branches next)
      else .node position entries (insertBranch value rest entry branches) next

def insertBranch (value : ObjectId) (constants : List (Nat × ObjectId)) (entry : α) :
    Branches α → Branches α
  | .empty => .cons value (chain entry constants) .empty
  | .cons v selector rest =>
    if v = value then .cons v (insert constants entry selector) rest
    else .cons v selector (insertBranch value constants entry rest)

end

mutual

/-- The entries whose constants agree with the arguments. -/
def select (args : List ObjectId) : Selector α → List α
  | .leaf entries => entries
  | .node position entries branches next =>
    entries ++ (match args[position]? with
      | some value => selectBranch args value branches
      | none => []) ++ select args next

def selectBranch (args : List ObjectId) (value : ObjectId) : Branches α → List α
  | .empty => []
  | .cons v selector rest =>
    if v = value then select args selector else selectBranch args value rest

end

end Selector
end Datalog
end FinitePlanning
