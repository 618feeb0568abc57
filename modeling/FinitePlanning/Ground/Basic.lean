import FinitePlanning.Atom

/-!
Ground tasks: actions and axioms without variables, whose conditions only mention atoms that can
change.
-/

namespace FinitePlanning

/-- An atom that is set when all literals of the condition hold. -/
structure ConditionalEffect where
  condition : List Literal
  atom : Atom
deriving DecidableEq, Repr, Inhabited

structure GroundAction where
  /-- The name with its arguments, such as `(move a b)`. -/
  name : String
  precondition : List Literal
  adds : List ConditionalEffect
  /-- Deletions, without those whose atom is added under the same condition. -/
  deletes : List ConditionalEffect
  cost : Int
deriving DecidableEq, Repr, Inhabited

/-- The effect holds when all literals of the condition do. -/
structure GroundAxiom where
  name : String
  condition : List Literal
  effect : Atom
deriving DecidableEq, Repr, Inhabited

instance : Ord GroundAxiom :=
  ⟨compareLex (compareOn GroundAxiom.name)
    (compareLex (compareOn GroundAxiom.condition) (compareOn GroundAxiom.effect))⟩

def ConditionalEffect.text (kind : String) (e : ConditionalEffect) : String :=
  kind ++ ": " ++ ", ".intercalate (e.condition.map (·.text)) ++ " -> " ++ e.atom.text ++ "\n"

def conditionLines (condition : List Literal) : String :=
  String.join (condition.map fun l => "PRE: " ++ l.text ++ "\n")

def GroundAction.text (a : GroundAction) : String :=
  a.name ++ "\n" ++ conditionLines a.precondition
    ++ String.join (a.adds.map (·.text "ADD"))
    ++ String.join (a.deletes.map (·.text "DEL"))
    ++ "cost: " ++ toString a.cost

def GroundAxiom.text (a : GroundAxiom) : String :=
  a.name ++ "\n" ++ conditionLines a.condition ++ "EFF: " ++ a.effect.text

/-- The part of a task that was found to be reachable. -/
structure GroundTask where
  /-- Whether the goal is reachable when negative conditions and deletions are ignored. If it is not
  the other fields are empty. -/
  relaxedReachable : Bool
  /-- Reachable atoms of fluent predicates in the order in which they were found. -/
  atoms : List Atom
  actions : List GroundAction
  /-- The axioms in order. -/
  axioms : List GroundAxiom
  /-- The fluent literals of the goal, unless one of its other literals is false. -/
  goal : Option (List Literal)
  /-- The applicable instances of action schemas: index and arguments. -/
  instances : List (Nat × List String)
deriving Repr, Inhabited

namespace GroundTask

def unreachable : GroundTask :=
  { relaxedReachable := false, atoms := [], actions := [], axioms := [], goal := none,
    instances := [] }

/-- The arguments of the applicable instances of an action schema. -/
def argumentsOf (instances : List (Nat × List String)) (index : Nat) : List (List String) :=
  instances.filterMap fun (i, args) => if i = index then some args else none

/-- The schemas that have applicable instances, in order, with the arguments of these. -/
def instancesBySchema (t : GroundTask) : List (Nat × List (List String)) :=
  ((t.instances.map (·.1)).eraseDups.mergeSort (· ≤ ·)).map fun i =>
    (i, argumentsOf t.instances i)

end GroundTask
end FinitePlanning
