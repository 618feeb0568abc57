import FinitePlanning.Invariant.Basic
import FinitePlanning.Names
import FinitePlanning.Task.Basic

/-!
The test that no action violates an invariant. An action that may add two atoms at once is too
heavy; one that adds an atom without deleting another one is unbalanced, and suggests refinements of
the candidate.
-/

namespace FinitePlanning

namespace Action

/-- Requires parameters to differ that differ in all reachable instances. -/
def withInequalities (a : Action) (instances : List (List String)) : Action :=
  let pairs := (List.range a.parameters.length).flatMap fun i =>
    ((List.range a.parameters.length).drop (i + 1)).map fun j => (i, j)
  let distinct := pairs.filter fun (i, j) => instances.all fun args => args[i]? != args[j]?
  let name (i : Nat) : String := (a.parameters.getD i default).name
  if distinct.isEmpty then a
  else { a with
    precondition := .and (a.precondition.conjuncts ++ distinct.map fun (i, j) =>
      .literal (Atom.negative ⟨.equal, [name i, name j]⟩)) }

/-- Fresh names for the parameters of an effect. -/
def freshNames (names : VariableNames) : List Parameter → Renaming × VariableNames
  | [] => ([], names)
  | p :: rest =>
    let (name, names) := names.fresh p.name
    let (others, names) := freshNames names rest
    ((p.name, name) :: others, names)

/-- Adds to each effect with parameters a copy with other variables. -/
def doubledEffects (names : VariableNames) : List Effect → List Effect
  | [] => []
  | e :: rest =>
    if e.parameters.isEmpty then e :: doubledEffects names rest
    else
      let (apart, names) := freshNames names e.parameters
      e :: e.rename apart :: doubledEffects names rest

/-- The action in which every universal effect occurs twice, with different variables. -/
def heavy (a : Action) : Action :=
  { a with effects := doubledEffects { used := a.variableNames } a.effects }

end Action

namespace Invariant

/-- Variables for the parameters of an invariant that the action does not use: `?v0`, `?v1`, ... -/
def freshVariables (a : Action) (arity : Nat) : List String :=
  let used := a.variableNames
  (((List.range (arity + used.length)).map fun i => "?v" ++ toString i).filter (· ∉ used)).take arity

/-- Makes two atoms differ if they have the same predicate. -/
def requireDistinct (s : ConstraintSystem) (a b : Atom) : ConstraintSystem :=
  if a.predicate = b.predicate && !a.args.isEmpty then s.withInequalities (a.args.zip b.args) else s

/-- The constraint of an equality literal, if it is one. -/
def requireEquality (s : ConstraintSystem) (l : Literal) : ConstraintSystem :=
  match l.atom.predicate, l.atom.args with
  | .equal, [a, b] => if l.negated then s.withInequalities [(a, b)] else s.withEqualities [(a, b)]
  | _, _ => s

/-- Makes a conjunction of literals satisfiable. -/
def requireSatisfiable (s : ConstraintSystem) (literals : List Literal) : ConstraintSystem :=
  let s := literals.foldl requireEquality s
  let others := (literals.filter (·.atom.predicate != .equal)).eraseDups
  let positive := others.filter (!·.negated)
  let negative := others.filter (·.negated)
  let clashes := positive.flatMap fun p =>
    (negative.filter (·.atom.predicate == p.atom.predicate)).map fun n =>
      n.atom.args.zip p.atom.args
  clashes.foldl .withInequalities s

/-- Makes an atom one of those that the invariant describes for the given parameters. -/
def requireCovered (v : Invariant) (s : ConstraintSystem) (a : Atom) (parameters : List String) :
    ConstraintSystem :=
  match v.part? a.predicate with
  | none => s
  | some part => s.withEqualities (part.assignment parameters a.args)

/-- Whether an effect is on an atom of the invariant. -/
def concerns (v : Invariant) (e : Effect) : Bool :=
  (v.part? e.literal.atom.predicate).isSome

/-- All pairs of elements of a list, the first one of a pair coming first in the list. -/
def pairs {α : Type} : List α → List (α × α)
  | [] => []
  | a :: rest => rest.map (a, ·) ++ pairs rest

/-- Whether an action may add two atoms of one instance of the invariant. -/
def isTooHeavy (v : Invariant) (a : Action) : Bool :=
  let adding := a.effects.filter fun e => !e.literal.negated && v.concerns e
  let parameters := freshVariables a v.arity
  (pairs adding).any fun (e, f) =>
    let s := requireDistinct {} e.literal.atom f.literal.atom
    let s := v.requireCovered s e.literal.atom parameters
    let s := v.requireCovered s f.literal.atom parameters
    let literals := a.precondition.literals ++ e.condition.literals ++ f.condition.literals
      ++ [e.literal.negate, f.literal.negate]
    (requireSatisfiable s literals).isSolvable

/-- The renamings of the parameters of an action under which an added atom is covered. Parameters
that this does not identify have to differ. -/
def coveringRenamings (v : Invariant) (a : Action) (e : Effect) (parameters : List String) :
    List ConstraintSystem :=
  match v.part? e.literal.atom.predicate with
  | none => []
  | some part =>
    let assignment := part.assignment parameters e.literal.atom.args
    match assignment.mapping? with
    | none => []
    | some mapping =>
      let representative (t : String) := (mapping.lookup t).getD t
      let apart := (pairs (a.parameters.map (·.name))).filter fun (p, q) =>
        representative p != representative q
      [apart.foldl (fun s pair => s.withInequalities [pair])
        (ConstraintSystem.withEqualities {} assignment)]

/-- What has to hold for literals known to hold to imply the condition of a deletion and its atom.
There is nothing if no known literal can imply one of them. -/
def impliesDeletion? (known : List Literal) (e : Effect) : Option ConstraintSystem := do
  let alternatives ← (e.condition.literals ++ [e.literal.negate]).mapM fun l =>
    let options := (known.filter fun k =>
      k.atom.predicate == l.atom.predicate && k.negated == l.negated).map fun k =>
        l.atom.args.zip k.atom.args
    if options.isEmpty then none else some options
  return alternatives.foldl .withAlternatives {}

/-- Whether a deletion fails to balance an addition under a renaming. -/
def staysUnbalanced (part : InvariantPart) (parameters : List String) (known : List Literal)
    (addition deletion : Effect) (covering : ConstraintSystem) : Bool :=
  let cover := part.assignment parameters deletion.literal.atom.args
  let constants := cover.filter (!isVariable ·.2)
  let differs := constants.foldl (fun s pair => s.withInequalities [pair]) ({} : ConstraintSystem)
  if !constants.isEmpty && (differs.combine covering).isSolvable then true
  else
    let s := requireDistinct (ConstraintSystem.withEqualities {} cover)
      addition.literal.atom deletion.literal.atom
    let s := s.combine covering
    if (requireSatisfiable covering known).isSolvable then
      match impliesDeletion? known deletion with
      | none => true
      | some implication => !(s.combine implication).isSolvable
    else !s.isSolvable

/-- The renamings under which none of the deletions balances an addition, unless there comes to be
none left. -/
def unbalancedRenamings? (v : Invariant) (parameters : List String) (known : List Literal)
    (addition : Effect) : List Effect → List ConstraintSystem → Option (List ConstraintSystem)
  | [], renamings => some renamings
  | deletion :: rest, renamings =>
    let left := match v.part? deletion.literal.atom.predicate with
      | none => renamings
      | some part => renamings.filter (staysUnbalanced part parameters known addition deletion)
    if left.isEmpty then none else unbalancedRenamings? v parameters known addition rest left

/-- The candidates that have a further part, which matches a deletion of the action. -/
def refinements (v : Invariant) (a : Action) (addition : Effect) : List Invariant :=
  match v.part? addition.literal.atom.predicate with
  | none => []
  | some part =>
    (a.effects.filter fun e => e.literal.negated && !v.concerns e).flatMap fun deletion =>
      (part.possibleMatches addition.literal deletion.literal).map v.withPart

/-- The refinements that an addition suggests if it is unbalanced. -/
def unbalancedAddition? (v : Invariant) (a : Action) (deletions : List Effect)
    (parameters : List String) (addition : Effect) : Option (List Invariant) := do
  let known := a.precondition.literals ++ addition.condition.literals ++ [addition.literal.negate]
  let _ ← unbalancedRenamings? v parameters known addition deletions
    (v.coveringRenamings a addition parameters)
  return v.refinements a addition

/-- The refinements that an action suggests if it is unbalanced. -/
def unbalancedAction? (v : Invariant) (a : Action) : Option (List Invariant) :=
  let parameters := freshVariables a v.arity
  let concerned := a.effects.filter v.concerns
  let deletions := concerned.filter (·.literal.negated)
  (concerned.filter (!·.literal.negated)).findSome?
    (v.unbalancedAddition? a deletions parameters)

end Invariant

/-- An action as the test sees it: with inequalities of parameters, and with universal effects
doubled. -/
structure BalancedAction where
  action : Action
  heavy : Action

namespace BalancedAction

def ofTask (t : Task) (argumentsOf : Nat → List (List String)) : List BalancedAction :=
  t.actions.zipIdx.map fun (a, i) =>
    let action := a.withInequalities (argumentsOf i)
    ⟨action, action.heavy⟩

/-- Whether an action adds an atom of one of the predicates of an invariant. -/
def threatens (a : BalancedAction) (v : Invariant) : Bool :=
  a.action.effects.any fun e => !e.literal.negated && v.concerns e

end BalancedAction

/-- Tests an invariant. Yields nothing if no action violates it, and the refinements that the first
violating action suggests otherwise. -/
def Invariant.violation? (actions : List BalancedAction) (v : Invariant) :
    Option (List Invariant) :=
  (actions.filter (·.threatens v)).findSome? fun a =>
    if v.isTooHeavy a.heavy then some [] else v.unbalancedAction? a.action

end FinitePlanning
