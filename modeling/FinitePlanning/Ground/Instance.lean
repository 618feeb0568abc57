import Std.Data.HashSet
import FinitePlanning.Collections
import FinitePlanning.Ground.Basic
import FinitePlanning.Task.Basic

/-!
Ground instances of the schemas of a task. Literals on atoms that cannot change are evaluated, the
others stay in the conditions.
-/

namespace FinitePlanning

/-- What is needed to evaluate the conditions of an instance. -/
structure Grounding where
  task : Task
  /-- The atoms that are true initially, type atoms included. -/
  init : Std.HashSet Atom
  /-- The reachable atoms of fluent predicates. -/
  fluent : Std.HashSet Atom

namespace Grounding

/-- The fluent literals of a condition, unless one of its other literals is false. -/
def condition? (g : Grounding) (values : Renaming) (c : Condition) : Option (List Literal) :=
  let literals := c.literals.map (·.rename values)
  let isFalse (l : Literal) := !g.fluent.contains l.atom && g.init.contains l.atom == l.negated
  if literals.any isFalse then none else some (literals.filter (g.fluent.contains ·.atom))

/-- What an effect does under given values of all variables. An atom that is not reachable can
neither be added nor deleted. -/
def simpleEffect? (g : Grounding) (values : Renaming) (e : Effect) :
    Option (List Literal × Literal) := do
  let condition ← g.condition? values e.condition
  let literal := e.literal.rename values
  if g.fluent.contains literal.atom then some (condition, literal) else none

/-- What an effect does, for all values of its parameters. -/
def effect (g : Grounding) (values : Renaming) (e : Effect) : List (List Literal × Literal) :=
  (choices (e.parameters.map fun p => g.task.objectsOf p.type)).filterMap fun objects =>
    g.simpleEffect? (((e.parameters.map (·.name)).zip objects).reverse ++ values) e

/-- The values that arguments give to parameters. -/
def valuesOf (ps : List Parameter) (args : List String) : Renaming :=
  ((ps.map (·.name)).zip args).reverse

/-- The name of an instance, such as `(move a b)`. -/
def instanceName (schema : String) (args : List String) : String :=
  "(" ++ " ".intercalate (schema :: args) ++ ")"

def cost (g : Grounding) (a : Action) (name : String) (values : Renaming) : Result Int :=
  if !g.task.minimizesCost then return 1
  else match a.cost with
    | none => return 0
    | some (.constant c) => return c
    | some (.function f) =>
      let term := f.rename values
      match g.task.assignments.value? term with
      | some value =>
        if 0 ≤ value then return value
        else throw (.error ("Negative cost " ++ toString value ++ " for action " ++ name))
      | none =>
        throw (.error ("No initial value for `" ++ term.text ++ "`, the cost of action " ++ name))

/-- The instance of an action, unless it is not applicable or has no effect. -/
def action? (g : Grounding) (a : Action) (args : List String) : Result (Option GroundAction) := do
  let values := valuesOf a.parameters args
  let name := instanceName a.name.name (args.take a.external)
  match g.condition? values a.precondition with
  | none => return none
  | some precondition =>
    let effects := a.effects.flatMap (g.effect values)
    if effects.isEmpty then return none
    let cost ← g.cost a name values
    let added := effects.filter (!·.2.negated)
    let deleted := effects.filter fun (c, l) => l.negated && (c, l.negate) ∉ added
    let effectOf (e : List Literal × Literal) : ConditionalEffect := ⟨e.1, e.2.atom⟩
    return some {
      name, precondition, cost
      adds := added.map effectOf
      deletes := deleted.map effectOf }

/-- The instance of an axiom, unless its condition is false. -/
def axiomInstance? (g : Grounding) (a : Axiom) (args : List String) : Option GroundAxiom := do
  let condition ← g.condition? (valuesOf a.parameters args) a.condition
  let external := args.take a.external
  return { name := instanceName a.name external, condition, effect := .named a.name external }

end Grounding
end FinitePlanning
