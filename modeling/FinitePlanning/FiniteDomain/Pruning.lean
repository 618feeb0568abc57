import FinitePlanning.FiniteDomain.Basic
import FinitePlanning.FiniteDomain.Trivial
import FinitePlanning.Graph.Basic

/-!
The transitions between the values of each variable, and the values that can be reached from the
initial one when all conditions on other variables are ignored. The values that cannot be reached
are removed, and so are the variables that are left with one value.
-/

namespace FinitePlanning
namespace FiniteDomain

/-- A possible change of the value of a variable, from any value if the old one is not known. -/
structure Transition where
  var : Nat
  before : Option Nat
  after : Nat
deriving DecidableEq, Repr, Inhabited

/-- The change that an effect makes under given preconditions, unless they contradict the condition
of the effect. -/
def Effect.transition? (e : Effect) (preconditions : List Fact) : Option Transition :=
  let required := (preconditions.find? (·.var = e.var)).toList ++ e.condition.filter (·.var = e.var)
  match required with
  | [] => some ⟨e.var, none, e.after⟩
  | f :: rest => if rest.all (· = f) then some ⟨e.var, some f.value, e.after⟩ else none

namespace Task

def transitions (t : Task) : List Transition :=
  t.operators.flatMap (fun o =>
    let preconditions := o.preconditions
    o.effects.filterMap (·.transition? preconditions))
  ++ t.rules.map fun r => ⟨r.effect.var, none, r.effect.value⟩

end Task

namespace Transition

/-- Adds the edges of a transition to the graph of the values of its variable. -/
def addTo (t : Transition) (g : Graph) : Graph :=
  match t.before with
  | some before => ⟨g.successors.modify before (t.after :: ·)⟩
  | none => ⟨g.successors.mapIdx fun value next => if value = t.after then next else t.after :: next⟩

end Transition

namespace Task

/-- The graph of the values of each variable. -/
def valueGraphs (t : Task) : Array Graph :=
  t.transitions.foldl (fun gs change => gs.modify change.var change.addTo)
    (t.vars.map fun v => ⟨Array.replicate v.range []⟩)

/-- The values of each variable that can be reached, in order. -/
def reachableValues (t : Task) : Array (List Nat) :=
  t.valueGraphs.zipWith (fun g init =>
    let reached := g.traverse [init]
    g.vertices.filter (!reached.isFresh ·)) t.init

end Task

/-- What becomes of a fact. -/
inductive Image where
  | always
  | never
  | fact (f : Fact)
deriving DecidableEq, Repr, Inhabited

def Image.fact? : Image → Option Fact
  | fact f => some f
  | always | never => none

/-- What becomes of each value of each variable. -/
structure Pruning where
  images : Array (Array Image)
deriving Repr, Inhabited

namespace Pruning

/-- The images of the values of a variable that is kept. -/
def keptImages (range newVar : Nat) (reachable : List Nat) : Array Image :=
  reachable.zipIdx.foldl (fun images (value, i) => images.setIfInBounds value (.fact ⟨newVar, i⟩))
    (Array.replicate range .never)

/-- The images of the values of a variable of which only some are reachable. It is removed if that
is a single one. `kept` is the number of earlier variables that are kept. -/
def imagesOf (range kept : Nat) (reachable : List Nat) : Array Image :=
  match reachable with
  | [single] => (Array.replicate range .never).setIfInBounds single .always
  | _ => keptImages range kept reachable

def isKept (reachable : List Nat) : Bool :=
  reachable.length ≠ 1

/-- Adds the next variable. -/
def push (acc : Array (Array Image) × Nat) (v : Variable × List Nat) : Array (Array Image) × Nat :=
  (acc.1.push (imagesOf v.1.range acc.2 v.2), if isKept v.2 then acc.2 + 1 else acc.2)

def ofReachable (vars : Array Variable) (reachable : Array (List Nat)) : Pruning :=
  ⟨((vars.zip reachable).foldl push (#[], 0)).1⟩

def image (p : Pruning) (f : Fact) : Image :=
  (p.images.getD f.var #[]).getD f.value .never

/-- What becomes of a conjunction of facts, unless one of them is never true. -/
def facts? (p : Pruning) (facts : List Fact) : Option (List Fact) :=
  let images := facts.map p.image
  if .never ∈ images then none else some (images.filterMap (·.fact?))

/-- The variables that are kept, with their reachable values. -/
def vars (vars : Array Variable) (reachable : Array (List Nat)) : Array Variable :=
  ((vars.zip reachable).filter (isKept ·.2)).map fun (v, values) =>
    { v with range := values.length, names := values.map (v.names.getD · "") }

/-- A group of one fact says nothing and is removed. -/
def mutex? (p : Pruning) (m : MutexGroup) : Option MutexGroup :=
  let facts := m.facts.filterMap fun f => (p.image f).fact?
  if 2 ≤ facts.length then some (.ofFacts facts) else none

def state (p : Pruning) (values : Array Nat) : Array Nat :=
  values.zipIdx.filterMap fun (value, var) => ((p.image ⟨var, value⟩).fact?).map (·.value)

/-- What becomes of an effect under given preconditions, unless it changes nothing. -/
def effect? (p : Pruning) (preconditions : List Fact) (e : Effect) : Option Effect := do
  let after ← (p.image e.afterFact).fact?
  let before ← match e.beforeFact? with
    | none => pure none
    | some f => some <$> (p.image f).fact?
  let condition ← p.facts? e.condition
  let compatible := condition.all fun c => preconditions.all fun f => f.var ≠ c.var ∨ f = c
  if before ≠ some after ∧ compatible then
    some ⟨after.var, before.map (·.value), after.value, condition⟩
  else none

/-- What becomes of an operator, unless it is never applicable or changes nothing. The preconditions
of effects that are removed stay. -/
def operator? (p : Pruning) (o : Operator) : Option Operator := do
  let preconditions ← p.facts? o.preconditions
  let effects := o.effects.filterMap (p.effect? preconditions)
  let changed := effects.map (·.var)
  if effects.isEmpty then none
  else some (.ofParts o.name (preconditions.filter (·.var ∉ changed)) effects o.cost)

/-- What becomes of a rule, unless it never applies or changes nothing. -/
def rule? (p : Pruning) (r : Rule) : Option Rule := do
  let condition ← p.facts? r.condition
  let effect ← (p.image r.effect).fact?
  return .ofParts condition effect

end Pruning

namespace Task

/-- The task without the values that cannot be reached, unless its goal becomes trivial. -/
def pruneValues (t : Task) : Except Trivial Task :=
  let reachable := t.reachableValues
  let p := Pruning.ofReachable t.vars reachable
  match p.facts? t.goal with
  | none => .error .goalSimplifiedToFalse
  | some [] => .error .goalSimplifiedToEmpty
  | some goal => .ok { t with
      vars := Pruning.vars t.vars reachable
      mutexes := t.mutexes.filterMap p.mutex?
      init := p.state t.init
      goal := goal.mergeSort fun a b => (compare a b).isLE
      operators := t.operators.filterMap p.operator?
      rules := t.rules.filterMap p.rule? }

end Task
end FiniteDomain
end FinitePlanning
