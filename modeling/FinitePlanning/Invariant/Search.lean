import Std.Data.HashSet
import FinitePlanning.Budget
import FinitePlanning.Invariant.Balance

/-!
The search for invariants. Candidates are examined breadth first, each refinement of a failed
candidate once. When the time is up the invariants are kept that were found until then.
-/

namespace FinitePlanning
namespace Invariant

/-- One candidate for each predicate that actions modify and each argument that may be counted. -/
def initialCandidates (t : Task) : List Invariant :=
  let modified := t.actions.flatMap fun a => a.effects.map (·.literal.atom.predicate)
  (t.predicates.filter fun p => .named p.name ∈ modified).flatMap fun p =>
    (none :: (List.range p.arity).map some).map fun omitted =>
      .ofParts [{
        predicate := .named p.name
        order := (List.range p.arity).filter (some · != omitted)
        omitted }]

structure Search where
  /-- Candidates that are still to be examined, in order. -/
  queue : List Invariant
  seen : Std.HashSet Invariant
  /-- The candidates that were examined and whether they were proven, last first. -/
  examined : List (Invariant × Bool) := []

namespace Search

def start (t : Task) : Search :=
  let candidates := initialCandidates t
  { queue := candidates, seen := .ofList candidates }

/-- Adds a candidate unless it was seen or there are too many. -/
def enqueue (most : Nat) (s : Search) (v : Invariant) : Search :=
  if s.seen.size < most && !s.seen.contains v then
    { s with queue := s.queue ++ [v], seen := s.seen.insert v }
  else s

/-- Examines the candidate that was taken off the queue. -/
def examine (actions : List BalancedAction) (most : Nat) (s : Search) (v : Invariant) : Search :=
  match v.violation? actions with
  | none => { s with examined := (v, true) :: s.examined }
  | some refined =>
    let s := { s with examined := (v, false) :: s.examined }
    refined.foldl (enqueue most) s

/-- Examines candidates until none is left or the time is up, at most `fuel` of them. -/
def run (budget : Budget) (actions : List BalancedAction) (most : Nat) (maxTime : Duration) :
    Nat → Search → Compilation Search
  | 0, s => return s
  | fuel + 1, s =>
    match s.queue with
    | [] => return s
    | v :: queue => do
      budget.tick
      if maxTime < budget.searchTime s.examined.length then
        Compilation.info "Time limit reached, aborting invariant generation"
        return s
      else run budget actions most maxTime fuel (examine actions most { s with queue } v)

/-- The candidates that were proven, in order. -/
def proven (s : Search) : List Invariant :=
  ((s.examined.filter (·.2)).map (·.1)).mergeSort fun a b => (compare a b).isLE

end Search

/-- The invariants of a task that are found among at most `most` candidates, as far as these are
examined in time. -/
def find (t : Task) (argumentsOf : Nat → List (List String)) (most : Nat) (maxTime : Duration)
    (budget : Budget) : Compilation (List Invariant) := do
  let start := Search.start t
  Compilation.info (toString start.queue.length ++ " initial candidates")
  let actions := BalancedAction.ofTask t argumentsOf
  let s ← Search.run budget actions most maxTime (start.queue.length + most) start
  let invariants := s.proven
  Compilation.info (toString invariants.length ++ " invariants found")
  return invariants

/-- An instance of an invariant: the position of the invariant and the parameters. -/
abbrev Instance := Nat × List String

/-- The first position of an initial atom of an instance, and the number of such atoms. -/
structure Occurrences where
  first : Nat
  count : Nat
deriving DecidableEq, Repr, Inhabited

/-- Counts one more initial atom of an instance. -/
def countInstance (i : Instance) (position : Nat) :
    List (Instance × Occurrences) → List (Instance × Occurrences)
  | [] => [(i, ⟨position, 1⟩)]
  | (j, o) :: rest =>
    if i = j then (j, { o with count := o.count + 1 }) :: rest
    else (j, o) :: countInstance i position rest

/-- The instances that cover initial atoms, with the number of the atoms. -/
def instanceCounts (invariants : List Invariant) (init : List Atom) :
    List (Instance × Occurrences) :=
  let covered := init.zipIdx.flatMap fun (a, position) =>
    invariants.zipIdx.filterMap fun (v, i) =>
      (v.parameters? a).map fun parameters => ((i, parameters), position)
  covered.foldl (fun table (i, position) => countInstance i position table) []

/-- The patterns of the instances with exactly one initial atom, ordered by invariant and then by
the position of the atom. -/
def selectUseful (invariants : List Invariant) (table : List (Instance × Occurrences)) :
    List (List AtomPattern) :=
  let before (a b : Instance × Occurrences) : Bool :=
    a.1.1 < b.1.1 || (a.1.1 == b.1.1 && a.2.first ≤ b.2.first)
  ((table.filter (·.2.count == 1)).mergeSort before).map fun ((i, parameters), _) =>
    (invariants.getD i default).instantiate parameters

/-- The instances of invariants that cover exactly one initial atom. -/
def usefulGroups (invariants : List Invariant) (init : List Atom) : List (List AtomPattern) :=
  selectUseful invariants (instanceCounts invariants init)

end Invariant
end FinitePlanning
