import FinitePlanning.Datalog.Split
import FinitePlanning.Task.Basic

/-!
The grounding program of a task in normal form. Its least model holds all atoms, actions and axioms
that are reachable when negative literals are ignored.
-/

namespace FinitePlanning
namespace Datalog

structure Program where
  symbols : SymbolTable
  facts : List GroundAtom
  rules : List SplitRule
deriving Inhabited

abbrev Interning := StateM SymbolTable

namespace Program

def factOf (a : Atom) : Interning GroundAtom := do
  let relation ← SymbolTable.internRelation (.predicate a.predicate)
  return { relation, args := ← a.args.mapM SymbolTable.internObject }

def termOf (name : String) : Interning Term := do
  if isVariable name then return .variable name
  return .object (← SymbolTable.internObject name)

def patternOf (r : Relation) (args : List String) : Interning Pattern := do
  let relation ← SymbolTable.internRelation r
  return { relation, args := ← args.mapM termOf }

/-- The conditions that parameters belong to their types. -/
def typeConditions (ps : List Parameter) : Interning (List Pattern) :=
  ps.mapM fun p => patternOf (.predicate (.type p.type)) [p.name]

/-- The positive literals of a condition. -/
def positiveConditions (c : Condition) : Interning (List Pattern) :=
  (c.literals.filter (!·.negated)).mapM fun l => patternOf (.predicate l.atom.predicate) l.atom.args

/-- The rule that an action or axiom is applicable. -/
def applicabilityRule (r : Relation) (ps : List Parameter) (c : Condition) : Interning Rule := do
  let head ← patternOf r (ps.map (·.name))
  let types ← typeConditions ps
  return { head, body := types ++ (← positiveConditions c) }

/-- The rules for what an applicable action adds. -/
def effectRules (applicable : Pattern) (effects : List Effect) : Interning (List Rule) :=
  (effects.filter (!·.literal.negated)).mapM fun e => do
    let types ← typeConditions e.parameters
    let conditions ← positiveConditions e.condition
    let head ← patternOf (.predicate e.literal.atom.predicate) e.literal.atom.args
    return { head, body := applicable :: types ++ conditions }

def actionRules (a : Action) (index : Nat) : Interning (List Rule) := do
  let applicability ← applicabilityRule (.action index) a.parameters a.precondition
  return applicability :: (← effectRules applicability.head a.effects)

def axiomRules (a : Axiom) (index : Nat) : Interning (List Rule) := do
  let applicability ← applicabilityRule (.derivation index) a.parameters a.condition
  let head ← patternOf (.predicate (.named a.name)) (a.externalParameters.map (·.name))
  return [applicability, { head, body := [applicability.head] }]

/-- The rules of a task. -/
def explorationRules (t : Task) : Interning (List Rule) := do
  let actions ← t.actions.zipIdx.mapM fun (a, i) => actionRules a i
  let axioms ← t.axioms.zipIdx.mapM fun (a, i) => axiomRules a i
  let goal ← positiveConditions t.goal
  let reached ← patternOf .goalReachable []
  return actions.flatten ++ axioms.flatten ++ [{ head := reached, body := goal }]

/-- The variables of the head that no condition mentions. -/
def unboundVariables (r : Rule) : List String :=
  let bound := r.body.flatMap Pattern.vars
  Condition.sortedNames (r.head.vars.filter (· ∉ bound))

/-- Lets the variables of the head that no condition mentions range over all objects. -/
def guardHead (object : RelationId) (r : Rule) : Rule :=
  { r with body := r.body ++ (unboundVariables r).map fun v => ⟨object, [.variable v]⟩ }

/-- Replaces repeated variables in the arguments of an atom, given the variables that occurred
before and the number of replacements so far. Yields the replacements with what they replace. -/
def renameRepeated (seen : List String) (count : Nat) :
    List Term → List Term × List (String × String)
  | [] => ([], [])
  | .object id :: rest =>
    let (args, renamed) := renameRepeated seen count rest
    (.object id :: args, renamed)
  | .variable v :: rest =>
    if v ∈ seen then
      let fresh := v ++ "@" ++ toString count
      let (args, renamed) := renameRepeated seen (count + 1) rest
      (.variable fresh :: args, (v, fresh) :: renamed)
    else
      let (args, renamed) := renameRepeated (v :: seen) count rest
      (.variable v :: args, renamed)

/-- Replaces repeated variables in several atoms, one after the other. -/
def renameRepeatedAll (count : Nat) : List Pattern → List Pattern × List (String × String)
  | [] => ([], [])
  | p :: rest =>
    let (args, renamed) := renameRepeated [] count p.args
    let (rest, more) := renameRepeatedAll (count + renamed.length) rest
    ({ p with args } :: rest, renamed ++ more)

/-- Replaces the repeated occurrences of a variable in an atom by variables that are constrained to
be equal to it. -/
def separateRepeated (equal : RelationId) (r : Rule) : Rule :=
  let (atoms, renamed) := renameRepeatedAll 0 (r.head :: r.body)
  { head := atoms.headD r.head
    body := atoms.tail ++ renamed.map fun (v, fresh) => ⟨equal, [.variable v, .variable fresh]⟩ }

/-- The head of a rule without conditions, as a fact. -/
def headFact (r : Rule) : GroundAtom :=
  { relation := r.head.relation
    args := r.head.args.filterMap fun | .object id => some id | .variable _ => none }

/-- Makes rules safe and free of repeated arguments. Rules without conditions become facts. -/
def normalizeRules (facts : List GroundAtom) (rules : List Rule) :
    Interning (List GroundAtom × List Rule) := do
  let object ← SymbolTable.internRelation .object
  let guarded := rules.map (guardHead object)
  let objects := (← get).objects
  let mentioned := facts.flatMap (·.args)
  let guards := if rules.any (fun r => !(unboundVariables r).isEmpty) then
      ((List.range objects.length).map ObjectId.mk).filter (· ∈ mentioned)
    else []
  let equal ← SymbolTable.internRelation (.predicate .equal)
  let separated := guarded.map (separateRepeated equal)
  let unconditional := separated.filter (·.body.isEmpty)
  return (facts ++ guards.map (⟨object, [·]⟩) ++ unconditional.map headFact,
    separated.filter (!·.body.isEmpty))

/-- The grounding program of a task in normal form. -/
def ofTask (t : Task) : Program :=
  let build : Interning (List GroundAtom × List Rule) := do
    t.objects.forM fun o => discard (SymbolTable.internObject o.name)
    let facts ← (t.typeAtoms ++ t.init).mapM factOf
    let rules ← explorationRules t
    normalizeRules facts rules
  let ((facts, rules), symbols) := Id.run (build.run {})
  let (rules, symbols) := splitRules symbols rules
  { symbols, facts, rules }

/-- The lines of a program: facts, then rules. -/
def lines (p : Program) : List String :=
  p.facts.map (fun a => p.symbols.text a ++ ".") ++ p.rules.map (·.text p.symbols)

end Program
end Datalog
end FinitePlanning
