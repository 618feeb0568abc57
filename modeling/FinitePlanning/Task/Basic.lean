import FinitePlanning.Pddl.Feature
import FinitePlanning.Schema
import FinitePlanning.TypeHierarchy

/-!
Planning tasks: typed objects, predicates, an initial state, a goal, and schemas.
-/

namespace FinitePlanning

structure Object where
  name : String
  type : String
deriving DecidableEq, Repr, Inhabited

structure PredicateSchema where
  name : String
  parameters : List Parameter
  derived : Bool
deriving DecidableEq, Repr, Inhabited

def PredicateSchema.arity (p : PredicateSchema) : Nat :=
  p.parameters.length

structure FunctionSchema where
  name : String
  parameters : List Parameter
deriving DecidableEq, Repr, Inhabited

/-- Values of function terms in the order of the terms. -/
abbrev Assignments := List (Atom × Int)

namespace Assignments

def value? (as : Assignments) (term : Atom) : Option Int :=
  as.lookup term

/-- Sets the value of a term. -/
def assign (term : Atom) (value : Int) : Assignments → Assignments
  | [] => [(term, value)]
  | (t, v) :: rest =>
    match compare term t with
    | .lt => (term, value) :: (t, v) :: rest
    | .eq => (term, value) :: rest
    | .gt => (t, v) :: assign term value rest

end Assignments

structure Task where
  domainName : String
  problemName : String
  requirements : List Pddl.Feature
  types : TypeHierarchy
  /-- Constants of the domain and objects of the problem in the order of their declaration. -/
  objects : List Object
  predicates : List PredicateSchema
  functions : List FunctionSchema
  /-- The atoms that are true initially, equalities included. -/
  init : List Atom
  assignments : Assignments
  goal : Condition
  actions : List Action
  axioms : List Axiom
  minimizesCost : Bool
deriving Inhabited

namespace Task

def predicate? (t : Task) (name : String) : Option PredicateSchema :=
  t.predicates.find? (·.name == name)

def derivedPredicates (t : Task) : List String :=
  (t.predicates.filter (·.derived)).map (·.name)

/-- The objects of a type or a subtype of it, in the order of their declaration. -/
def objectsOf (t : Task) (type : String) : List String :=
  (t.objects.filter fun o => type ∈ t.types.ancestors o.type).map (·.name)

/-- The types with their objects. -/
def objectsByType (t : Task) : List (String × List String) :=
  t.types.types.map fun type => (type, t.objectsOf type)

/-- The type atoms of all objects, such as `block(a)` and `object(a)`. -/
def typeAtoms (t : Task) : List Atom :=
  t.objects.flatMap fun o => (t.types.ancestors o.type).map fun type => ⟨.type type, [o.name]⟩

def text (t : Task) : String :=
  let line (s : String) := "  " ++ s ++ "\n"
  "Problem " ++ t.problemName ++ ": " ++ Pddl.Feature.listText t.requirements
    ++ " (domain " ++ t.domainName ++ ")\n"
    ++ "Types:\n" ++ String.join (t.types.types.map fun type =>
      line (type ++ match t.types.parent? type with
        | some parent => " - " ++ parent
        | none => ""))
    ++ "Objects:\n" ++ String.join (t.objects.map fun o => line (o.name ++ ": " ++ o.type))
    ++ "Init:\n" ++ String.join (t.init.map fun a => line a.text)
    ++ String.join (t.assignments.map fun (a, v) => line (a.text ++ " := " ++ toString v))
    ++ "Goal:\n" ++ line t.goal.text
    ++ "Actions:\n" ++ String.join (t.actions.map fun a => "  " ++ a.text)
    ++ "Axioms:\n" ++ String.join (t.axioms.map fun a => line a.text)

end Task
end FinitePlanning
