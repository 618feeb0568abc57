import FinitePlanning.Collections

/-!
Tasks over variables with finitely many values. Variables are denoted by their positions, and the
values of a variable by the numbers below its range.
-/

namespace FinitePlanning
namespace FiniteDomain

/-- A variable has a value. -/
structure Fact where
  var : Nat
  value : Nat
deriving DecidableEq, Hashable, Repr, Inhabited

namespace Fact

instance : Ord Fact :=
  ⟨compareLex (compareOn var) (compareOn value)⟩

def text (f : Fact) : String :=
  toString f.var ++ " " ++ toString f.value

end Fact

structure Variable where
  /-- Number of values. -/
  range : Nat
  /-- The layer of a derived variable. Other variables are set by operators. -/
  layer : Option Nat := none
  /-- The names of the values. -/
  names : List String
deriving DecidableEq, Repr, Inhabited

def Variable.isDerived (v : Variable) : Bool :=
  v.layer.isSome

/-- Facts of which at most one holds in any reachable state. -/
structure MutexGroup where
  facts : List Fact
deriving DecidableEq, Repr, Inhabited

namespace MutexGroup

def ofFacts (facts : List Fact) : MutexGroup :=
  ⟨orderedSet facts⟩

/-- Number of variables that occur in an ordered group. -/
def variableCount (m : MutexGroup) : Nat :=
  (dropRepeats (m.facts.map (·.var))).length

end MutexGroup

/-- Gives a variable a new value if it has the old one, if that is known, and if all facts of the
condition hold. -/
structure Effect where
  var : Nat
  before : Option Nat
  after : Nat
  condition : List Fact := []
deriving DecidableEq, Repr, Inhabited

namespace Effect

instance : Ord Effect :=
  ⟨compareLex (compareOn var) (compareLex (compareOn before)
    (compareLex (compareOn after) (compareOn condition)))⟩

/-- The fact that the variable has its old value. -/
def beforeFact? (e : Effect) : Option Fact :=
  e.before.map (⟨e.var, ·⟩)

/-- The fact that the variable has its new value. -/
def afterFact (e : Effect) : Fact :=
  ⟨e.var, e.after⟩

def size (e : Effect) : Nat :=
  1 + e.condition.length + if e.before.isSome then 1 else 0

end Effect

/-- The effects of an operator take place together. -/
structure Operator where
  name : String
  /-- Conditions on variables that the operator does not change. -/
  prevail : List Fact
  effects : List Effect
  cost : Int
deriving DecidableEq, Repr, Inhabited

namespace Operator

/-- An operator with its conditions and effects in order, each once. -/
def ofParts (name : String) (prevail : List Fact) (effects : List Effect) (cost : Int) : Operator :=
  { name, cost
    prevail := orderedSet prevail
    effects := orderedSet (effects.map fun e => { e with condition := orderedSet e.condition }) }

/-- All facts that must hold for the operator to be applicable, in order. -/
def preconditions (o : Operator) : List Fact :=
  orderedSet (o.prevail ++ o.effects.filterMap (·.beforeFact?))

def size (o : Operator) : Nat :=
  1 + o.prevail.length + total (o.effects.map (·.size))

end Operator

/-- Sets a derived variable when all facts of the condition hold. -/
structure Rule where
  condition : List Fact
  effect : Fact
deriving DecidableEq, Repr, Inhabited

namespace Rule

/-- A rule with its conditions in order, each once. -/
def ofParts (condition : List Fact) (effect : Fact) : Rule :=
  ⟨orderedSet condition, effect⟩

def size (r : Rule) : Nat :=
  1 + r.condition.length

end Rule

structure Task where
  vars : Array Variable
  mutexes : List MutexGroup := []
  /-- The initial value of each variable. -/
  init : Array Nat
  /-- The facts of the goal in order. -/
  goal : List Fact
  operators : List Operator := []
  rules : List Rule := []
  /-- Whether the costs of operators count. -/
  metric : Bool := false
deriving DecidableEq, Repr, Inhabited

namespace Task

/-- The total number of values of the variables. -/
def factCount (t : Task) : Nat :=
  total (t.vars.toList.map (·.range))

/-- The total number of facts of the mutex groups. -/
def mutexFactCount (t : Task) : Nat :=
  total (t.mutexes.map (·.facts.length))

/-- Number of integers that are needed to write the task. -/
def size (t : Task) : Nat :=
  t.vars.size + t.factCount + t.mutexFactCount + t.goal.length
    + total (t.operators.map (·.size)) + total (t.rules.map (·.size))

end Task
end FiniteDomain

/-!
### Partial assignments

Partial assignments of values to variables, as facts in the order of their variables, at most one
for each variable.
-/
namespace FiniteDomain

abbrev Assignment := List Fact

namespace Assignment

def value? (a : Assignment) (var : Nat) : Option Nat :=
  (a.find? (·.var = var)).map (·.value)

/-- Gives a variable a value. -/
def assign (f : Fact) : Assignment → Assignment
  | [] => [f]
  | g :: rest =>
    if f.var < g.var then f :: g :: rest
    else if f.var = g.var then f :: rest
    else g :: assign f rest

/-- Whether the assignment gives the variable of a fact another value. -/
def contradicts (a : Assignment) (f : Fact) : Bool :=
  (a.value? f.var).any (· ≠ f.value)

/-- Both assignments together, unless they contradict each other. -/
def union? (a b : Assignment) : Option Assignment :=
  if b.any a.contradicts then none else some (b.foldl (fun a f => a.assign f) a)

/-- The facts that are still required under an assignment, unless it contradicts one of them. -/
def residual? (a : Assignment) (facts : List Fact) : Option (List Fact) :=
  if facts.any a.contradicts then none else some (facts.filter fun f => (a.value? f.var).isNone)

end Assignment
end FiniteDomain
end FinitePlanning
