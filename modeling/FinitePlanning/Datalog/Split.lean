import FinitePlanning.Condition.Simplify
import FinitePlanning.Datalog.Rule
import FinitePlanning.UnionFind

/-!
Splitting of rules. Conditions that share no variable, not even through other conditions, are
combined by a product. Connected conditions are joined pair by pair, the pair that introduces the
fewest new variables first.
-/

namespace FinitePlanning
namespace Datalog

open Condition (sortedNames)

/-- A set of variables, in order. -/
def variableSet (ps : List Pattern) : List String :=
  sortedNames (ps.flatMap Pattern.vars)

/-- The first condition in which each variable was seen, and sets of connected conditions. -/
structure Connections where
  first : List (String × Nat) := []
  sets : UnionFind

/-- Connects a condition that has a variable to the first condition that has it. -/
def Connections.add (c : Connections) (occurrence : String × Nat) : Connections :=
  let (v, i) := occurrence
  match c.first.lookup v with
  | some j => { c with sets := c.sets.unite j i }
  | none => { first := (v, i) :: c.first, sets := c.sets.unite i i }

/-- All occurrences of variables in conditions, which are numbered. -/
def occurrences (conditions : List Pattern) : List (String × Nat) :=
  conditions.zipIdx.flatMap fun (p, i) => p.vars.map (·, i)

def connections (conditions : List Pattern) : Connections :=
  (occurrences conditions).foldl .add { sets := .ofSize conditions.length }

/-- Puts a condition into the group of its root, a new one if there is none yet. -/
def addToGroup (root : Nat) (p : Pattern) : List (Nat × List Pattern) → List (Nat × List Pattern)
  | [] => [(root, [p])]
  | (other, group) :: groups =>
    if other = root then (other, group ++ [p]) :: groups
    else (other, group) :: addToGroup root p groups

/-- Groups of conditions that are connected through shared variables, ordered by their first
condition. -/
def components (conditions : List Pattern) : List (List Pattern) :=
  let roots := (connections conditions).sets.roots (List.range conditions.length)
  ((conditions.zip roots).foldl (fun groups (p, root) => addToGroup root p groups) []).map (·.2)

/-- What is compared to find the next pair to join: the variables that only the smaller condition
has, those that only the larger one has, and the common ones, of which more are better. -/
structure JoinCost where
  onlySmaller : Nat
  onlyLarger : Nat
  common : Nat

def JoinCost.lt (a b : JoinCost) : Bool :=
  a.onlySmaller < b.onlySmaller ||
    (a.onlySmaller == b.onlySmaller && (a.onlyLarger < b.onlyLarger ||
      (a.onlyLarger == b.onlyLarger && b.common < a.common)))

def joinCost (left right : Pattern) : JoinCost :=
  let left := variableSet [left]
  let right := variableSet [right]
  let (smaller, larger) := if right.length < left.length then (right, left) else (left, right)
  let common := (smaller.filter (· ∈ larger)).length
  ⟨smaller.length - common, larger.length - common, common⟩

/-- How often each variable occurs. One that does not occur has no entry. -/
abbrev Occurrences := List (String × Nat)

namespace Occurrences

/-- Changes the number of occurrences of a variable, which must not become negative. -/
def change? (o : Occurrences) (delta : Int) (v : String) : Option Occurrences :=
  let count : Int := (o.lookup v).getD 0 + delta
  let others := o.filter (·.1 ≠ v)
  if count < 0 then none
  else if count = 0 then some others
  else some ((v, count.toNat) :: others)

def update? (o : Occurrences) (delta : Int) (p : Pattern) : Option Occurrences :=
  p.vars.foldlM (fun o v => o.change? delta v) o

def contains (o : Occurrences) (v : String) : Bool :=
  (o.lookup v).isSome

/-- The numbers of occurrences in some conditions. -/
def count? (ps : List Pattern) : Option Occurrences :=
  ps.foldlM (fun o p => update? o 1 p) []

end Occurrences

/-- Takes out an element at a position, if there is one. -/
def takeAt? {α : Type} (l : List α) (i : Nat) : Option (α × List α) :=
  l[i]?.map (·, l.eraseIdx i)

/-- The conditions that are left to join, and what it costs to join each of them with those before
it. -/
structure CostMatrix where
  joinees : List Pattern := []
  costs : List (List JoinCost) := []

namespace CostMatrix

variable (m : CostMatrix)

def add (joinee : Pattern) : CostMatrix where
  joinees := m.joinees ++ [joinee]
  costs := m.costs ++ [m.joinees.map (joinCost joinee)]

def remove? (i : Nat) : Option (Pattern × CostMatrix) := do
  let later ← (m.costs.drop (i + 1)).mapM fun row => (takeAt? row i).map (·.2)
  let (_, costs) ← takeAt? (m.costs.take (i + 1) ++ later) i
  let (joinee, joinees) ← takeAt? m.joinees i
  return (joinee, { joinees, costs })

/-- The costs with the positions of their pairs. -/
def entries : List (JoinCost × Nat × Nat) :=
  m.costs.zipIdx.flatMap fun (row, i) => row.zipIdx.map fun (cost, j) => (cost, i, j)

/-- The positions of the cheapest pair, the first one in case of ties. -/
def minPair? : Option (Nat × Nat) :=
  let best? := m.entries.foldl (fun best? entry =>
    match best? with
    | none => some entry
    | some best => if entry.1.lt best.1 then some entry else some best) none
  best?.map (·.2)

def removeMinPair? : Option (Pattern × Pattern × CostMatrix) := do
  let (i, j) ← m.minPair?
  let (left, m) ← m.remove? i
  let (right, m) ← m.remove? j
  return (left, right, m)

theorem length_of_remove? {i : Nat} {p : Pattern} {rest : CostMatrix}
    (h : m.remove? i = some (p, rest)) : rest.joinees.length + 1 = m.joinees.length := by
  simp only [remove?, takeAt?, Option.bind_eq_bind, Option.bind_eq_some_iff,
    Option.map_eq_some_iff] at h
  obtain ⟨_, -, _, -, _, ⟨_, hp, rfl⟩, h⟩ := h
  cases h
  have hlt := (List.getElem?_eq_some_iff.mp hp).1
  rw [List.length_eraseIdx_of_lt hlt]
  omega

theorem length_of_removeMinPair? {left right : Pattern} {rest : CostMatrix}
    (h : m.removeMinPair? = some (left, right, rest)) :
    rest.joinees.length + 2 = m.joinees.length := by
  simp only [removeMinPair?, Option.bind_eq_bind, Option.bind_eq_some_iff, Option.pure_def,
    Option.some.injEq, Prod.mk.injEq] at h
  obtain ⟨_, -, ⟨_, other⟩, hleft, ⟨_, last⟩, hright, -, -, h⟩ := h
  obtain rfl : last = rest := h
  have hleft := length_of_remove? _ hleft
  have hright := length_of_remove? other hright
  omega

end CostMatrix

/-- The relations that are known while rules are split. -/
structure SplitState where
  symbols : SymbolTable
  nextAuxiliary : Nat := 0

/-- What changes while rules are split. -/
structure Splitter extends SplitState where
  result : List SplitRule := []

namespace Splitter

/-- Steps of the splitter. One that fails is an internal error. -/
abbrev Run := StateT Splitter Option

def push (r : SplitRule) : Run Unit :=
  modify fun s => { s with result := s.result ++ [r] }

/-- A new auxiliary relation applied to variables. -/
def fresh (vars : List String) : Run Pattern := do
  let s ← get
  let (relation, symbols) :=
    Id.run ((SymbolTable.internRelation (.auxiliary s.nextAuxiliary)).run s.symbols)
  set { s with symbols, nextAuxiliary := s.nextAuxiliary + 1 }
  return { relation, args := vars.map .variable }

/-- Projects a condition to the variables that are retained. Nothing is done if these are all. -/
def projectTo (retained : List String) (p : Pattern) : Run Pattern := do
  let all := variableSet [p]
  let kept := all.filter (· ∈ retained)
  if kept = all then return p
  let projected ← fresh kept
  push { kind := .project, body := [p], head := projected }
  return projected

/-- Joins the cheapest pair until a single condition is left. The variables that still occur are
needed. -/
def joinPairs (occurrences : Occurrences) (costs : CostMatrix) : Run Unit :=
  if costs.joinees.length < 2 then return ()
  else match h : costs.removeMinPair? with
    | none => failure
    | some (left, right, rest) => do
      have := costs.length_of_removeMinPair? h
      let occurrences ← occurrences.update? (-1) left
      let occurrences ← occurrences.update? (-1) right
      let needed := (variableSet [left, right]).filter (occurrences.contains ·)
      let common := left.vars.filter (· ∈ right.vars)
      let left ← projectTo (needed ++ common) left
      let right ← projectTo (needed ++ common) right
      let joint ← fresh needed
      push { kind := .join, body := [left, right], head := joint }
      let occurrences ← occurrences.update? 1 joint
      joinPairs occurrences (rest.add joint)
termination_by costs.joinees.length
decreasing_by
  rw [CostMatrix.add, List.length_append, List.length_singleton]
  omega

/-- Gives the last rule another head. -/
def withLastHead (head : Pattern) (rules : List SplitRule) : List SplitRule :=
  match rules.getLast? with
  | none => rules
  | some last => rules.dropLast ++ [{ last with head }]

/-- Joins conditions pair by pair. The last join, of which there must be one, produces the head of
the rule. -/
def greedyJoin (head : Pattern) (body : List Pattern) : Run Unit := do
  let occurrences ← Occurrences.count? (head :: body)
  let before ← get
  joinPairs occurrences (body.foldl .add {})
  let after ← get
  if after.result.length ≤ before.result.length then failure
  else set { after with result := withLastHead head after.result }

/-- Splits a rule whose conditions are connected. -/
def splitConnected (head : Pattern) (body : List Pattern) : Run Unit :=
  if body.length ≤ 1 then push { kind := .project, body, head } else greedyJoin head body

/-- Splits a rule into rules of the three kinds. -/
def splitRule (r : Rule) : Run Unit := do
  let trivial := r.body.filter (!·.hasVariables)
  let components := components (r.body.filter Pattern.hasVariables)
  match components, trivial with
  | [body], [] => splitConnected r.head body
  | _, _ =>
    let parts ← components.mapM fun component => do
      let projected ← fresh ((variableSet component).filter (· ∈ r.head.vars))
      splitConnected projected component
      return projected
    let combined := parts ++ trivial
    let kind := if 2 ≤ combined.length then RuleKind.product else .project
    push { kind, body := combined, head := r.head }

end Splitter

/-- Splits rules, with auxiliary relations that are entered into the table of symbols. -/
def splitRules? (symbols : SymbolTable) (rules : List Rule) :
    Option (List SplitRule × SymbolTable) := do
  let (_, s) ← (forM rules Splitter.splitRule).run { symbols }
  return (s.result, s.symbols)

/-- The rules that come out of the splitter, which has no internal errors. -/
def splitRules (symbols : SymbolTable) (rules : List Rule) : List SplitRule × SymbolTable :=
  (splitRules? symbols rules).getD ([], symbols)

end Datalog
end FinitePlanning
