import FinitePlanning.FiniteDomain.Basic
import FinitePlanning.Graph.Basic
import FinitePlanning.Graph.WeightedOrder

/-!
The causal graph of a task, which has an edge from each variable in a condition to each variable that
is set under this condition. The variables are renumbered along this graph, and those that cannot
influence the goal are removed.
-/

namespace FinitePlanning
namespace FiniteDomain

/-- A variable in a condition, and one that is set under this condition. -/
abbrev Arc := Nat × Nat

def Operator.arcs (o : Operator) : List Arc :=
  let sources := o.prevail.map (·.var) ++ (o.effects.filter (·.before.isSome)).map (·.var)
  o.effects.flatMap fun e => (sources ++ e.condition.map (·.var)).map (·, e.var)

def Rule.arcs (r : Rule) : List Arc :=
  r.condition.map fun f => (f.var, r.effect.var)

/-- The arcs between different variables, as often as they occur. -/
def Task.arcs (t : Task) : List Arc :=
  (t.operators.flatMap (·.arcs) ++ t.rules.flatMap (·.arcs)).filter fun (v, w) => v ≠ w

/-- The numbers that occur in a list in order, with how often they do. -/
def occurrences (l : List Nat) : List (Nat × Nat) :=
  (l.mergeSort (· ≤ ·)).foldr (fun v counts =>
    match counts with
    | (w, n) :: rest => if v = w then (w, n + 1) :: rest else (v, 1) :: counts
    | [] => [(v, 1)]) []

structure CausalGraph where
  /-- The targets of the arcs from each variable in order, with the number of these arcs. -/
  weights : Graph.WeightedEdges
  /-- The variables of the goal. -/
  goals : List Nat
deriving Repr

namespace CausalGraph

def ofTask (t : Task) : CausalGraph where
  weights := (t.arcs.foldl (fun targets (v, w) => targets.modify v (w :: ·))
    (Array.replicate t.vars.size [])).map occurrences
  goals := t.goal.map (·.var)

def graph (g : CausalGraph) : Graph :=
  ⟨g.weights.map (·.map (·.1))⟩

/-- The weight of arcs, with which goal variables come last in their component. -/
def weightTo (g : CausalGraph) (target arcs : Nat) : Nat :=
  if target ∈ g.goals then Graph.WeightedEdges.lateWeight + arcs else arcs

/-- The weighted edges inside a component, in which variables are denoted by their positions. -/
def edgesWithin (g : CausalGraph) (position : Array Nat) (component : List Nat) :
    Graph.WeightedEdges :=
  let first := position.getD (component.headD 0) 0
  let within (target : Nat) : Bool :=
    first ≤ position.getD target 0 && position.getD target 0 < first + component.length
  (component.map fun v => (g.weights.getD v []).filterMap fun (target, arcs) =>
    if within target then some (position.getD target 0 - first, g.weightTo target arcs)
    else none).toArray

/-- Orders a component. -/
def orderWithin (g : CausalGraph) (position : Array Nat) (component : List Nat) : List Nat :=
  match component with
  | [single] => [single]
  | _ =>
    let members := component.toArray
    (g.edgesWithin position component).order.map (members.getD · 0)

/-- The variables in an order in which arcs between different components lead forward. -/
def ordering (g : CausalGraph) : List Nat :=
  let components := g.graph.components
  let position := Graph.positions g.weights.size components.flatten
  components.flatMap (g.orderWithin position)

/-- Traverses the variables from which a goal variable can be reached. -/
def towardGoals (g : CausalGraph) : Graph.Traversal :=
  g.graph.reverse.traverse g.goals

end CausalGraph

/-- The new number of each variable that is kept. -/
structure Renumbering where
  numbers : Array (Option Nat)
deriving Repr

namespace Renumbering

/-- Numbers the variables of a list in its order. -/
def ofList (size : Nat) (order : List Nat) : Renumbering :=
  ⟨order.zipIdx.foldl (fun ns (v, i) => ns.setIfInBounds v (some i)) (Array.replicate size none)⟩

def number? (r : Renumbering) (var : Nat) : Option Nat :=
  r.numbers.getD var none

def fact? (r : Renumbering) (f : Fact) : Option Fact :=
  (r.number? f.var).map (⟨·, f.value⟩)

/-- The facts about variables that are kept. -/
def facts (r : Renumbering) (facts : List Fact) : List Fact :=
  facts.filterMap r.fact?

/-- A group about a single variable says nothing and is removed. -/
def mutex? (r : Renumbering) (m : MutexGroup) : Option MutexGroup :=
  let m := MutexGroup.ofFacts (r.facts m.facts)
  if 1 < m.variableCount then some m else none

def effect? (r : Renumbering) (e : Effect) : Option Effect :=
  (r.number? e.var).map fun var => { e with var, condition := r.facts e.condition }

/-- An operator that changes no variable that is kept is removed. -/
def operator? (r : Renumbering) (o : Operator) : Option Operator :=
  let effects := o.effects.filterMap r.effect?
  if effects.isEmpty then none
  else some (.ofParts o.name (r.facts o.prevail) effects o.cost)

def rule? (r : Renumbering) (rule : Rule) : Option Rule :=
  (r.fact? rule.effect).map (.ofParts (r.facts rule.condition))

end Renumbering

namespace Task

/-- The task with the variables of a list, in its order. -/
def withOrder (t : Task) (order : List Nat) : Task :=
  let r := Renumbering.ofList t.vars.size order
  { t with
    vars := (order.map fun v => t.vars.getD v default).toArray
    mutexes := t.mutexes.filterMap r.mutex?
    init := (order.map fun v => t.init.getD v 0).toArray
    goal := (r.facts t.goal).mergeSort fun a b => (compare a b).isLE
    operators := t.operators.filterMap r.operator?
    rules := t.rules.filterMap r.rule? }

/-- The variables of a task in their new order. Those that are irrelevant to the goal are left out
if asked for. -/
def variableOrder (t : Task) (reorder onlyRelevant : Bool) : List Nat :=
  let g := CausalGraph.ofTask t
  let order := if reorder then g.ordering else List.range t.vars.size
  if onlyRelevant then
    let relevant := g.towardGoals
    order.filter (!relevant.isFresh ·)
  else order

/-- Orders the variables along the causal graph and removes those that are irrelevant to the goal,
as far as asked for. -/
def arrange (t : Task) (reorder onlyRelevant : Bool) : Task :=
  if reorder || onlyRelevant then t.withOrder (t.variableOrder reorder onlyRelevant) else t

end Task
end FiniteDomain
end FinitePlanning
