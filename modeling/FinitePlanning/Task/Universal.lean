import FinitePlanning.Names
import FinitePlanning.Task.Basic

/-!
Removal of universal quantifiers. A condition that holds for all values of some variables is the
negation of a new derived predicate, which holds if it fails for some of them. Equal conditions
share one predicate.
-/

namespace FinitePlanning
namespace Universal

/-- What the removal has introduced so far. -/
structure State where
  names : AxiomNames
  /-- The new axioms in order. -/
  axioms : List Axiom := []
  /-- The predicates introduced for conditions with their parameters. -/
  known : List ((Condition × List Parameter) × String) := []

abbrev Removal := StateM State

/-- The parameters of the predicate that stands for a condition: its free variables. -/
def parametersOf (types : List Parameter) (c : Condition) : List Parameter :=
  c.freeVariables.map fun v =>
    ⟨v, ((types.find? (·.name == v)).map (·.type)).getD objectType⟩

/-- The negation of the predicate that is defined by a condition. If the predicate is new, its
condition is replaced by `defining`, in which inner universal quantifiers are removed. -/
def negatedAxiom (types : List Parameter) (c : Condition) (defining : Removal Condition) :
    Removal Condition := do
  let parameters := parametersOf types c
  let s ← get
  let name ← match s.known.lookup (c, parameters) with
    | some name => pure name
    | none => do
      let (name, names) := s.names.fresh AxiomNames.base
      set { s with names, known := ((c, parameters), name) :: s.known }
      let condition ← if c.hasUniversalPart then Condition.simplified <$> defining else pure c
      modify fun s => { s with
        axioms := s.axioms ++ [{ name, parameters, external := parameters.length, condition }] }
      pure name
  return .literal (Atom.named name (parameters.map (·.name))).negative

mutual

/-- Removes the universal quantifiers of a condition or, if asked for, of its negation. -/
def remove (types : List Parameter) (negated : Bool) : Condition → Removal Condition
  | .true => return if negated then .false else .true
  | .false => return if negated then .true else .false
  | .literal l => return .literal (if negated then l.negate else l)
  | .and parts => do
    let parts ← removeAll types negated parts
    return if negated then .or parts else .and parts
  | .or parts => do
    let parts ← removeAll types negated parts
    return if negated then .and parts else .or parts
  | .forall ps body =>
    let inner := do return Condition.exists ps (← remove types true body)
    if negated then inner else negatedAxiom types (.exists ps body.negate) inner
  | .exists ps body =>
    let inner := do return Condition.exists ps (← remove types false body)
    if negated then negatedAxiom types (.exists ps body) inner else inner

def removeAll (types : List Parameter) (negated : Bool) :
    List Condition → Removal (List Condition)
  | [] => return []
  | c :: rest => do
    let c ← remove types negated c
    return c :: (← removeAll types negated rest)

end

/-- Removes the universal quantifiers of a condition, whose variables have the given types. -/
def removeFrom (types : List Parameter) (c : Condition) : Removal Condition := do
  if c.hasUniversalPart then return (← remove types false c).simplified else return c

/-- The variables of an action with their types, innermost last. -/
def actionVariables (a : Action) : List Parameter :=
  a.parameters ++ a.effects.flatMap (·.parameters) ++ a.precondition.quantifiedParameters
    ++ a.effects.flatMap (·.condition.quantifiedParameters)

def removeFromAction (a : Action) : Removal Action := do
  let types := (actionVariables a).reverse
  let precondition ← removeFrom types a.precondition
  let effects ← a.effects.mapM fun e => return { e with condition := ← removeFrom types e.condition }
  return { a with precondition, effects }

def removeFromAxiom (a : Axiom) : Removal Axiom := do
  let types := (a.parameters ++ a.condition.quantifiedParameters).reverse
  return { a with condition := ← removeFrom types a.condition }

def removeFromTask (t : Task) : Removal Task := do
  let actions ← t.actions.mapM removeFromAction
  let axioms ← t.axioms.mapM removeFromAxiom
  let goal ← removeFrom t.goal.quantifiedParameters.reverse t.goal
  return { t with actions, axioms, goal }

end Universal

namespace Task

/-- Adds an axiom for a new derived predicate. -/
def define (t : Task) (a : Axiom) : Task :=
  { t with
    predicates := t.predicates ++ [{ name := a.name, parameters := a.parameters, derived := true }]
    axioms := t.axioms ++ [a] }

/-- Replaces universal quantifiers by new derived predicates. -/
def removeUniversals (t : Task) (names : AxiomNames) : Task × AxiomNames :=
  let (t, s) := Id.run ((Universal.removeFromTask t).run { names })
  (s.axioms.foldl define t, s.names)

end Task
end FinitePlanning
