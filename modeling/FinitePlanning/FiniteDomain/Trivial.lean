import FinitePlanning.FiniteDomain.Basic

/-!
Tasks whose solvability is known before they are encoded in full. A small task of the same
solvability takes their place.
-/

namespace FinitePlanning
namespace FiniteDomain

namespace Task

/-- A task with one variable, which keeps its value. -/
def constant (goalValue : Nat) : Task where
  vars := #[{ range := 2, names := ["Atom dummy(val1)", "Atom dummy(val2)"] }]
  init := #[0]
  goal := [⟨0, goalValue⟩]
  metric := true

/-- A task whose goal holds in the initial state. -/
def solvable : Task := constant 0

/-- A task whose goal is never reached. -/
def unsolvable : Task := constant 1

end Task

/-- How the solvability of a task came to be known. -/
inductive Trivial where
  | goalUnreachable
  | goalFalse
  | goalViolatesMutex
  | goalEmpty
  | goalSimplifiedToFalse
  | goalSimplifiedToEmpty
deriving DecidableEq, Repr

namespace Trivial

def isSolvable : Trivial → Bool
  | goalEmpty | goalSimplifiedToEmpty => true
  | goalUnreachable | goalFalse | goalViolatesMutex | goalSimplifiedToFalse => false

def reason : Trivial → String
  | goalUnreachable => "No relaxed solution"
  | goalFalse => "Trivially false goal"
  | goalViolatesMutex => "Goal violates a mutex"
  | goalEmpty => "Empty goal"
  | goalSimplifiedToFalse => "Simplified to trivially false goal"
  | goalSimplifiedToEmpty => "Simplified to empty goal"

def text (t : Trivial) : String :=
  t.reason ++ "! Generating " ++ (if t.isSolvable then "solvable" else "unsolvable") ++ " task..."

/-- A small task with the same solvability. -/
def task (t : Trivial) : Task :=
  if t.isSolvable then .solvable else .unsolvable

end Trivial
end FiniteDomain
end FinitePlanning
