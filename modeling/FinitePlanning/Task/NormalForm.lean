import FinitePlanning.Condition.Simplify
import FinitePlanning.Task.Universal

/-!
Normal form of tasks: all conditions are conjunctions of literals. Universal quantifiers and
complicated goals become derived predicates, disjunctions become copies of what they belong to, and
existential quantifiers become parameters.
-/

namespace FinitePlanning
namespace Task

/-- Replaces a goal that is no conjunction of literals by a new derived atom. -/
def deriveGoal (t : Task) (names : AxiomNames) : Task :=
  if t.goal.conjunction?.isSome then t
  else
    let name := (names.fresh AxiomNames.base).1
    let t := t.define { name, parameters := [], external := 0, condition := t.goal }
    { t with goal := .literal (Atom.named name []).positive }

/-- Applies a function to the conditions of actions, effects and axioms. -/
def mapConditions (f : Condition → Condition) (t : Task) : Task :=
  { t with
    actions := t.actions.map fun a => { a with
      precondition := f a.precondition
      effects := a.effects.map fun e => { e with condition := f e.condition } }
    axioms := t.axioms.map fun a => { a with condition := f a.condition } }

/-- Replaces every item with a disjunctive condition by one copy for each alternative, after the
other items. -/
def splitItems {α : Type} (condition : α → Condition) (withCondition : α → Condition → α)
    (items : List α) : List α :=
  items.filter (fun a => (condition a).alternatives?.isNone)
    ++ items.flatMap fun a => ((condition a).alternatives?.getD []).map (withCondition a)

def splitDisjunctions (t : Task) : Task :=
  let effects := splitItems Effect.condition fun e c => { e with condition := c }
  { t with
    actions := splitItems Action.precondition (fun a c => { a with precondition := c })
      (t.actions.map fun a => { a with effects := effects a.effects })
    axioms := splitItems Axiom.condition (fun a c => { a with condition := c }) t.axioms }

def eliminateInAxiom (a : Axiom) : Axiom :=
  let (ps, body) := a.condition.splitExistential
  { a with parameters := a.parameters ++ ps, condition := body }

def eliminateInEffect (e : Effect) : Effect :=
  let (ps, body) := e.condition.splitExistential
  { e with parameters := e.parameters ++ ps, condition := body }

def eliminateInAction (a : Action) : Action :=
  let (ps, body) := a.precondition.splitExistential
  { a with
    parameters := a.parameters ++ ps
    precondition := body
    effects := a.effects.map eliminateInEffect }

/-- Turns existential variables into parameters of actions and axioms, and into quantified
variables of effects. -/
def eliminateExistentials (t : Task) : Task :=
  { t with actions := t.actions.map eliminateInAction, axioms := t.axioms.map eliminateInAxiom }

/-- Removes effects, actions and axioms whose condition is false, and actions without effects. -/
def removeImpossible (t : Task) : Task :=
  let actions := t.actions.map fun a => { a with effects := a.effects.filter (·.condition ≠ .false) }
  { t with
    actions := actions.filter fun a => a.precondition ≠ .false && !a.effects.isEmpty
    axioms := t.axioms.filter (·.condition ≠ .false) }

/-- Whether the predicate of an atom has an axiom. -/
def isDerived (t : Task) (a : Atom) : Bool :=
  match a.predicate with
  | .named name => t.axioms.any (·.name == name)
  | _ => false

/-- Fails if a derived predicate is true initially or modified by an action. -/
def checkDerived (t : Task) : Result Unit := do
  if let some fact := t.init.find? t.isDerived then
    throw (.error ("Derived predicate `" ++ fact.predicate.text
      ++ "` appears in the initial state: " ++ fact.text))
  t.actions.forM fun a =>
    match a.effects.find? (t.isDerived ·.literal.atom) with
    | none => pure ()
    | some e =>
      throw ((Message.error ("Derived predicate `" ++ e.literal.atom.predicate.text
        ++ "` appears in an effect of action `" ++ a.name.name ++ "`")).info a.name "action")

def normalizeConditions (t : Task) (names : AxiomNames) : Task :=
  let (t, names) := t.removeUniversals names
  let t := (t.deriveGoal names).mapConditions Condition.disjunctiveForm
  let t := t.splitDisjunctions.mapConditions Condition.pullExistentials
  t.eliminateExistentials.removeImpossible

/-- The normal form of a task. New predicates get names that the task does not declare. -/
def normalize (t : Task) : Result Task := do
  let t := t.normalizeConditions { taken := t.predicates.map (·.name) }
  t.checkDerived
  return t

end Task
end FinitePlanning
