import FinitePlanning.Condition.Simplify

/-!
Flattened effects, the costs of actions, and schemas of actions and axioms.
-/

namespace FinitePlanning

/-- For all values of the parameters: when the condition holds, the literal becomes true. -/
structure Effect where
  parameters : List Parameter
  condition : Condition
  literal : Literal
deriving DecidableEq, Repr, Inhabited

namespace Effect

def rename (r : Renaming) (e : Effect) : Effect :=
  { parameters := e.parameters.map (·.rename r)
    condition := e.condition.rename r
    literal := e.literal.rename r }

def text (e : Effect) : String :=
  (if e.parameters.isEmpty then "" else "forall " ++ Parameter.listText e.parameters ++ ": ")
    ++ (if e.condition = .true then "" else "if " ++ e.condition.text ++ " then ")
    ++ e.literal.text

end Effect

/-- The cost of an action. -/
inductive Cost where
  | constant (value : Int)
  /-- The value of a function in the initial state. -/
  | function (term : Atom)
deriving DecidableEq, Repr

def Cost.text : Cost → String
  | .constant value => toString value
  | .function term => term.text

/-- An action schema. Its first `external` parameters appear in the names of its instances; the
others were existential variables. -/
structure Action where
  name : Symbol
  parameters : List Parameter
  external : Nat
  precondition : Condition
  effects : List Effect
  cost : Option Cost
deriving Inhabited

namespace Action

def externalParameters (a : Action) : List Parameter :=
  a.parameters.take a.external

/-- The names of the parameters and of the variables quantified in effects. -/
def variableNames (a : Action) : List String :=
  (a.parameters ++ a.effects.flatMap (·.parameters)).map (·.name)

def text (a : Action) : String :=
  a.name.name ++ "(" ++ Parameter.listText a.parameters ++ ")\n"
    ++ "  pre: " ++ a.precondition.text ++ "\n"
    ++ String.join (a.effects.map fun e => "  eff: " ++ e.text ++ "\n")
    ++ match a.cost with
      | none => ""
      | some cost => "  cost: " ++ cost.text ++ "\n"

end Action

/-- A rule for a derived predicate: the predicate holds of the first `external` parameters if there
are values for the others that make the condition true. -/
structure Axiom where
  name : String
  parameters : List Parameter
  external : Nat
  condition : Condition
deriving Inhabited

namespace Axiom

def externalParameters (a : Axiom) : List Parameter :=
  a.parameters.take a.external

def text (a : Axiom) : String :=
  a.name ++ "(" ++ Parameter.listText a.externalParameters ++ ") <- " ++ a.condition.text

end Axiom
end FinitePlanning
