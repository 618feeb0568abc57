import FinitePlanning.Datalog.Model
import FinitePlanning.Ground.Instance

/-!
The reachable part of a task, read off the least model of its grounding program.
-/

namespace FinitePlanning

/-- The predicates that may change: those that actions modify and the derived ones. -/
def Task.fluentPredicates (t : Task) : List Predicate :=
  t.actions.flatMap (fun a => a.effects.map (·.literal.atom.predicate))
    ++ t.axioms.map fun a => .named a.name

namespace GroundTask

open Datalog (Program GroundAtom)

/-- The arguments of an atom of the model. -/
def argsOf (p : Program) (a : GroundAtom) : List String :=
  a.args.map p.symbols.object

/-- The atoms of the model that may change. -/
def fluentAtoms (t : Task) (p : Program) (model : List GroundAtom) : List Atom :=
  let fluent := t.fluentPredicates
  model.filterMap fun a =>
    match p.symbols.relation a.relation with
    | .predicate predicate =>
      if predicate ∈ fluent then some ⟨predicate, argsOf p a⟩ else none
    | _ => none

/-- The applicable instances of action schemas. -/
def actionInstances (p : Program) (model : List GroundAtom) : List (Nat × List String) :=
  model.filterMap fun a =>
    match p.symbols.relation a.relation with
    | .action i => some (i, argsOf p a)
    | _ => none

/-- The applicable instances of axioms. -/
def axiomInstances (p : Program) (model : List GroundAtom) : List (Nat × List String) :=
  model.filterMap fun a =>
    match p.symbols.relation a.relation with
    | .derivation i => some (i, argsOf p a)
    | _ => none

def goalReached (p : Program) (model : List GroundAtom) : Bool :=
  model.any fun a => p.symbols.relation a.relation = .goalReachable

def grounding (t : Task) (atoms : List Atom) : Grounding :=
  { task := t, init := .ofList (t.init ++ t.typeAtoms), fluent := .ofList atoms }

/-- Instantiates the part of a task that its model holds. -/
def ofModel (t : Task) (p : Program) (model : List GroundAtom) (budget : Budget) :
    Compilation GroundTask := do
  if !goalReached p model then
    Compilation.info "Goal is not relaxed reachable"
    return unreachable
  let atoms := fluentAtoms t p model
  let g := grounding t atoms
  let instances := actionInstances p model
  let actions ← instances.filterMapM fun (i, args) => do
    budget.tick
    Compilation.ofResult (g.action? (t.actions.getD i default) args)
  let axioms ← (axiomInstances p model).filterMapM fun (i, args) => do
    budget.tick
    return g.axiomInstance? (t.axioms.getD i default) args
  Compilation.info (toString actions.length ++ " actions and " ++ toString axioms.length
    ++ " axioms instantiated")
  return {
    relaxedReachable := true
    atoms, actions, instances
    axioms := axioms.mergeSort fun a b => (compare a b).isLE
    goal := g.condition? [] t.goal }

/-- The reachable part of a task in normal form. -/
def explore (t : Task) (budget : Budget) : Compilation GroundTask := do
  let p := Program.ofTask t
  let model ← p.model budget
  ofModel t p model budget

end GroundTask
end FinitePlanning
