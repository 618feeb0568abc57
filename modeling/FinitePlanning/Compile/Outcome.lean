import FinitePlanning.Compile.Reading
import FinitePlanning.FiniteDomain.Check
import FinitePlanning.FiniteDomain.Encoding
import FinitePlanning.FiniteDomain.Pruning
import FinitePlanning.FiniteDomain.VariableOrder
import FinitePlanning.Ground.Explore

/-!
Compilation of planning tasks into finite-domain tasks.
-/

namespace FinitePlanning

/-- The result of a compilation. -/
inductive Outcome where
  /-- The compiled task, with the fact groups that its variables stand for. -/
  | compiled (task : FiniteDomain.Task) (groups : FactGroups)
  /-- The task was shown to have no plan. The one given here has none either. -/
  | unsolvable (task : FiniteDomain.Task)
deriving Repr, Inhabited

namespace Outcome

def task : Outcome → FiniteDomain.Task
  | compiled task _ | unsolvable task => task

def groups? : Outcome → Option FactGroups
  | compiled _ groups => some groups
  | unsolvable _ => none

def exitCode : Outcome → Nat
  | compiled .. => 0
  | unsolvable _ => 10

def ofTrivial (t : FiniteDomain.Trivial) (groups : FactGroups) : Outcome :=
  if t.isSolvable then compiled t.task groups else unsolvable t.task

end Outcome

namespace Compile

open FiniteDomain (Trivial)

/-- How many of a number of things are left. -/
def countText (left all : Nat) (what : String) : String :=
  toString left ++ " of " ++ toString all ++ " " ++ what ++ " necessary."

/-- Ends the compilation of a task that is trivial. -/
def trivial (t : Trivial) (groups : FactGroups := {}) : Compilation Outcome := do
  Compilation.info t.text
  return .ofTrivial t groups

/-- Removes unreachable values, if asked for. -/
def pruned (t : FiniteDomain.Task) (o : Options) : Compilation (Except Trivial FiniteDomain.Task) := do
  if !o.filterUnreachableFacts then return .ok t
  match t.pruneValues with
  | .error trivial => return .error trivial
  | .ok smaller =>
    Compilation.info (toString (t.operators.length - smaller.operators.length)
      ++ " operators removed")
    Compilation.info (toString (t.rules.length - smaller.rules.length) ++ " axioms removed")
    Compilation.info (countText smaller.mutexes.length t.mutexes.length "mutex groups")
    Compilation.info (toString (t.factCount - smaller.factCount) ++ " propositions removed")
    return .ok smaller

/-- Orders the variables and removes irrelevant ones, if asked for. -/
def arranged (t : FiniteDomain.Task) (o : Options) : Compilation FiniteDomain.Task := do
  let smaller := t.arrange o.reorderVariables o.filterUnimportantVariables
  if o.filterUnimportantVariables then
    Compilation.info (countText smaller.vars.size t.vars.size "variables")
  if o.reorderVariables || o.filterUnimportantVariables then
    Compilation.info (countText smaller.mutexes.length t.mutexes.length "mutex groups")
    Compilation.info (countText smaller.operators.length t.operators.length "operators")
    Compilation.info (countText smaller.rules.length t.rules.length "axiom rules")
  return smaller

/-- Simplifies an encoded task. -/
def simplified (t : FiniteDomain.Task) (groups : FactGroups) (o : Options) :
    Compilation Outcome := do
  match ← pruned t o with
  | .error reason => trivial reason groups
  | .ok t =>
    let t ← arranged t o
    match t.check with
    | .error defect => throw (.inconsistent defect.text)
    | .ok () => return .compiled t groups

/-- Encodes a ground task whose goal is known. -/
def encoded (t : Task) (g : GroundTask) (goal : List Literal) (o : Options) (budget : Budget) :
    Compilation Outcome := do
  budget.check
  let groups ← FactGroups.compute t g.atoms (GroundTask.argumentsOf g.instances) o budget
  budget.check
  let axioms ← StratifiedAxioms.compute g.actions g.axioms goal o.layerStrategy
  let p : PropositionalTask :=
    ⟨g.atoms, t.init, goal, g.actions, axioms, t.minimizesCost⟩
  if o.dumpTask then Compilation.info ("Grounded task:\n" ++ p.text)
  match ← FiniteDomain.Task.encode p groups o.usePartialEncoding with
  | .error reason => trivial reason groups
  | .ok task =>
    budget.check
    simplified task groups o

/-- Compiles a task in normal form. -/
def task (t : Task) (o : Options) (budget : Budget) : Compilation Outcome := do
  let g ← GroundTask.explore t budget
  if !g.relaxedReachable then trivial .goalUnreachable
  else match g.goal with
    | none => trivial .goalFalse
    | some goal => encoded t g goal o budget

/-- Compiles the task of a domain and a problem. -/
def run (domain problem : Source) (o : Options) (budget : Budget) : Compilation Outcome := do
  task (← normalized domain problem) o budget

/-- Logs the size of a compiled task. -/
def logStatistics (t : FiniteDomain.Task) : Compilation Unit := do
  let log (what : String) (n : Nat) : Compilation Unit :=
    Compilation.info ("Translator " ++ what ++ ": " ++ toString n)
  log "variables" t.vars.size
  log "derived variables" (t.vars.countP (·.isDerived))
  log "facts" t.factCount
  log "goal facts" t.goal.length
  log "mutex groups" t.mutexes.length
  log "total mutex groups size" t.mutexFactCount
  log "operators" t.operators.length
  log "axioms" t.rules.length
  log "task size" t.size

end Compile
end FinitePlanning
