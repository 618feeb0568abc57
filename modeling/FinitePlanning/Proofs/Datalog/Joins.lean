import FinitePlanning.Datalog.Split

/-!
Splitting of rules as a recursion on the conditions that are left. What a pair costs, and which
variables are needed after it was joined, is read off the conditions, and the rules of a condition
are a list of their own.
-/

namespace FinitePlanning
namespace Datalog

/-- All pairs of positions, the larger one first, in the order in which they are compared. -/
def positionPairs (n : Nat) : List (Nat × Nat) :=
  (List.range n).flatMap fun i => (List.range i).map fun j => (i, j)

/-- The positions of the cheapest pair to join, the first one in case of ties. -/
def cheapestPair? (conditions : List Pattern) : Option (Nat × Nat) :=
  let cost (pair : Nat × Nat) := joinCost (conditions.getD pair.1 default)
    (conditions.getD pair.2 default)
  (positionPairs conditions.length).foldl (fun best? pair =>
    match best? with
    | none => some pair
    | some best => if (cost pair).lt (cost best) then some pair else some best) none

abbrev Splitting := StateM SplitState

/-- A new auxiliary relation applied to variables. -/
def freshPattern (vars : List String) : Splitting Pattern := do
  let s ← get
  let (relation, symbols) :=
    Id.run ((SymbolTable.internRelation (.auxiliary s.nextAuxiliary)).run s.symbols)
  set ({ symbols, nextAuxiliary := s.nextAuxiliary + 1 } : SplitState)
  return { relation, args := vars.map .variable }

/-- Projects a condition to the variables that are retained. Nothing is done if these are all. -/
def projectTo (retained : List String) (p : Pattern) : Splitting (Pattern × List SplitRule) := do
  let all := variableSet [p]
  let kept := all.filter (· ∈ retained)
  if kept = all then return (p, [])
  let projected ← freshPattern kept
  return (projected, [{ kind := .project, body := [p], head := projected }])

/-- Joins connected conditions pair by pair until the head is left. -/
def joinAll (head : Pattern) (conditions : List Pattern) : Splitting (List SplitRule) := do
  match cheapestPair? conditions with
  | none => return []
  | some (i, j) =>
    let left := conditions.getD i default
    let right := conditions.getD j default
    let rest := (conditions.eraseIdx i).eraseIdx j
    let needed := head.vars ++ rest.flatMap Pattern.vars
    let result := (variableSet [left, right]).filter (· ∈ needed)
    let common := left.vars.filter (· ∈ right.vars)
    let (left, first) ← projectTo (result ++ common) left
    let (right, second) ← projectTo (result ++ common) right
    let joint ← freshPattern result
    if rest.isEmpty then
      return first ++ second ++ [{ kind := .join, body := [left, right], head }]
    else if rest.length + 1 < conditions.length then
      let later ← joinAll head (rest ++ [joint])
      return first ++ second ++ [{ kind := .join, body := [left, right], head := joint }] ++ later
    else return []
termination_by conditions.length
decreasing_by simpa using by assumption

/-- Splits a rule whose conditions are connected. -/
def splitConnected (head : Pattern) (body : List Pattern) : Splitting (List SplitRule) :=
  if body.length ≤ 1 then return [{ kind := .project, body, head }] else joinAll head body

/-- Splits a rule into rules of the three kinds. -/
def splitRule (r : Rule) : Splitting (List SplitRule) := do
  let trivial := r.body.filter (!·.hasVariables)
  let components := components (r.body.filter Pattern.hasVariables)
  match components, trivial with
  | [body], [] => splitConnected r.head body
  | _, _ =>
    let parts ← components.mapM fun component => do
      let projected ← freshPattern ((variableSet component).filter (· ∈ r.head.vars))
      return (projected, ← splitConnected projected component)
    let combined := parts.map (·.1) ++ trivial
    let kind := if 2 ≤ combined.length then RuleKind.product else .project
    return parts.flatMap (·.2) ++ [{ kind, body := combined, head := r.head }]

/-- Splits rules, with auxiliary relations that are entered into the table of symbols. -/
def splitAll (symbols : SymbolTable) (rules : List Rule) : List SplitRule × SymbolTable :=
  let (parts, s) := Id.run ((rules.mapM splitRule).run { symbols })
  (parts.flatten, s.symbols)

end Datalog
end FinitePlanning
