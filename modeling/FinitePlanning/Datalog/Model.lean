import Std.Data.HashSet
import FinitePlanning.Budget
import FinitePlanning.Datalog.Compiled
import FinitePlanning.Datalog.Program
import FinitePlanning.Datalog.Selector

/-!
The least model of a program. Atoms are processed in the order in which they are found: each is
matched with the conditions of the rules, and each match is combined with the atoms that matched the
other conditions of the rule before.
-/

namespace FinitePlanning
namespace Datalog

/-- A condition of a rule, by their positions. -/
structure ConditionRef where
  rule : Nat
  condition : Nat
deriving DecidableEq, Repr, Inhabited

/-- For each relation, the conditions that atoms of it may match. -/
def selectors (p : Program) : Array (Selector ConditionRef) :=
  let conditions := p.rules.zipIdx.flatMap fun (r, i) =>
    r.body.zipIdx.map fun (c, j) => (c, ConditionRef.mk i j)
  conditions.foldl (fun table (c, entry) =>
    table.modify c.relation.index (Selector.insert c.constants entry))
    (Array.replicate p.symbols.relations.length (.leaf []))

/-- The atoms found so far, of which those before `next` were processed. -/
structure Queue where
  atoms : Array GroundAtom := #[]
  known : Std.HashSet GroundAtom := {}
  next : Nat := 0
  /-- How often an atom was found. -/
  pushes : Nat := 0

namespace Queue

def push (q : Queue) (a : GroundAtom) : Queue :=
  let q := { q with pushes := q.pushes + 1 }
  if q.known.contains a then q
  else { q with atoms := q.atoms.push a, known := q.known.insert a }

/-- The position of the next atom to process. -/
def pop? (q : Queue) : Option (Nat × Queue) :=
  if q.next < q.atoms.size then some (q.next, { q with next := q.next + 1 }) else none

end Queue

structure Search extends Queue where
  rules : Array CompiledRule

namespace Search

/-- Processes the atom at a position. -/
def process (table : Array (Selector ConditionRef)) : Search → Nat → Search
  | ⟨queue, rules⟩, atom =>
    let a := queue.atoms.getD atom default
    let entries := (table.getD a.relation.index (.leaf [])).select a.args
    let (rules, found) := Id.run ((entries.foldlM (fun (rules : Array CompiledRule) entry =>
      rules.modifyM entry.rule (·.fire entry.condition atom queue.atoms)) rules).run #[])
    ⟨found.foldl .push queue, rules⟩

/-- Processes atoms until none is left, at most `fuel` of them. -/
def run (budget : Budget) (table : Array (Selector ConditionRef)) :
    Nat → Search → Compilation Search
  | 0, s => return s
  | fuel + 1, s =>
    match s.pop? with
    | none => return s
    | some (atom, queue) => do
      budget.tick
      let s := process table { s with toQueue := queue } atom
      budget.checkModelSize s.atoms.size
      run budget table fuel s

end Search

namespace Program

/-- A bound on the number of atoms of a model: those that can be built from the relations of facts
and heads, with the number of their arguments, and the objects. -/
def atomBound (p : Program) : Nat :=
  let arities := p.facts.map (fun a => (a.relation, a.args.length))
    ++ p.rules.map (fun r => (r.head.relation, r.head.args.length))
  total (arities.eraseDups.map fun (_, arity) => Nat.pow p.symbols.objects.length arity)

/-- Facts in the order in which they are processed. -/
def sortedFacts (p : Program) : List GroundAtom :=
  p.facts.mergeSort fun a b => (compare a b).isLE

/-- The least model of a program, in order of discovery. -/
def model (p : Program) (budget : Budget) : Compilation (List GroundAtom) := do
  let queue := p.sortedFacts.foldl Queue.push {}
  let rules := (p.rules.map CompiledRule.compile).toArray
  let s ← Search.run budget (selectors p) (p.atomBound + 1) { toQueue := queue, rules }
  let atoms := s.atoms.toList
  let auxiliary := (atoms.filter fun a => (p.symbols.relation a.relation).isAuxiliary).length
  Compilation.info (toString (atoms.length - auxiliary) ++ " relevant atoms")
  Compilation.info (toString auxiliary ++ " auxiliary atoms")
  Compilation.info (toString atoms.length ++ " final queue length")
  Compilation.info (toString s.pushes ++ " total queue pushes")
  return atoms

end Program
end Datalog
end FinitePlanning
