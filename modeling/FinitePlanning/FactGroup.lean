import FinitePlanning.Collections
import FinitePlanning.Ground.Basic
import FinitePlanning.Invariant.Search

/-!
Groups of mutually exclusive atoms, and the choice of those that become variables. The largest group
is chosen first, the earliest one in case of ties, until all that is left are single atoms.
-/

namespace FinitePlanning

structure FactGroups where
  /-- The groups that become variables. -/
  groups : List (List Atom) := []
  /-- All groups of invariants, and a group for each atom that is in none of them. -/
  mutexGroups : List (List Atom) := []
  /-- The names of the values of each variable. -/
  valueNames : List (List String) := []
deriving Repr, Inhabited

namespace FactGroups

/-- The name of the value of a variable when no atom of its group is true. -/
def noneOfThose : String := "<none of those>"

/-- The groups in a format of lines. -/
def text (g : FactGroups) : String :=
  let group (atoms : List Atom) : List String :=
    ["group", toString atoms.length] ++ atoms.map fun a => "Atom " ++ a.text
  let lines := ["begin_groups", toString g.groups.length] ++ g.groups.flatMap group ++ ["end_groups"]
  String.join (lines.map (· ++ "\n"))

/-- The atoms of a pattern, for all objects in the place of the counted argument. -/
def expandPattern (objects : List String) (p : AtomPattern) : List Atom :=
  let atom (counted : String) : Atom := ⟨p.predicate, p.args.map (·.getD counted)⟩
  if none ∈ p.args then objects.map atom else [atom countedArgument]

/-- The reachable atoms of an instance of an invariant. -/
def expand (objects : List String) (reachable : List Atom) (group : List AtomPattern) : List Atom :=
  let known := Std.HashSet.ofList reachable
  (group.flatMap (expandPattern objects)).filter known.contains

/-- Each group in order, and the groups in order. -/
def sortGroups (groups : List (List Atom)) : List (List Atom) :=
  (groups.map (·.mergeSort fun a b => (compare a b).isLE)).mergeSort fun a b => (compare a b).isLE

/-- The state of the choice. A bucket holds the positions of groups that had its number of atoms
when they were put into it; groups may have become smaller since then. -/
structure Choosing where
  groups : Array (List Atom)
  buckets : Array (List Nat)
  /-- No bucket of a larger size holds a group. -/
  size : Nat
  /-- The groups that were chosen, last first. -/
  chosen : List (List Atom) := []

namespace Choosing

/-- Inserts a position into an ordered list of positions. -/
def insertPosition (i : Nat) : List Nat → List Nat
  | [] => [i]
  | j :: rest => if i < j then i :: j :: rest else if i = j then j :: rest else j :: insertPosition i rest

/-- Puts a group into the bucket of its current size. -/
def file (s : Choosing) (i : Nat) : Choosing :=
  { s with buckets := s.buckets.modify (s.groups.getD i []).length (insertPosition i) }

def start (groups : List (List Atom)) : Choosing :=
  let groups := groups.map (·.eraseDups)
  let size := (groups.map (·.length)).foldl max 0
  let empty : Choosing := ⟨groups.toArray, Array.replicate (size + 1) [], size, []⟩
  (List.range groups.length).foldl file empty

/-- Chooses a group. In the partial encoding its atoms are removed from all groups. -/
def choose (s : Choosing) (isPartial : Bool) (group : List Atom) : Choosing :=
  { s with
    groups := if isPartial then s.groups.map (·.filter (· ∉ group)) else s.groups
    chosen := group :: s.chosen }

/-- Chooses groups until all are small, in at most `fuel` steps. -/
def run (isPartial : Bool) : Nat → Choosing → Choosing
  | 0, s => s
  | fuel + 1, s =>
    if s.size ≤ 1 then s
    else match s.buckets.getD s.size [] with
      | [] => run isPartial fuel { s with size := s.size - 1 }
      | i :: rest =>
        let s := { s with buckets := s.buckets.set! s.size rest }
        let group := s.groups.getD i []
        run isPartial fuel (if group.length = s.size then s.choose isPartial group else s.file i)

/-- A bound on the number of steps: each group is put into ever smaller buckets. -/
def stepBound (groups : List (List Atom)) : Nat :=
  total (groups.map (·.length + 2)) + (groups.map (·.length)).foldl max 0 + 1

end Choosing

/-- The groups that are chosen, in the order in which they are. -/
def chooseLarge (groups : List (List Atom)) (isPartial : Bool) : List (List Atom) :=
  (Choosing.run isPartial (Choosing.stepBound groups) (Choosing.start groups)).chosen.reverse

/-- The atoms that are in none of the groups. -/
def uncovered (groups : List (List Atom)) (atoms : List Atom) : List Atom :=
  let covered := Std.HashSet.ofList groups.flatten
  atoms.filter (!covered.contains ·)

def singletons (atoms : List Atom) : List (List Atom) :=
  atoms.map ([·])

/-- The names of the values of the variable of a group. -/
def valueNamesOf (group : List Atom) : List String :=
  group.map (·.positive.text) ++ match group with
    | [single] => [single.negative.text]
    | _ => [noneOfThose]

/-- The fact groups of a task, given the reachable atoms in the order in which they were found. -/
def compute (t : Task) (atoms : List Atom) (argumentsOf : Nat → List (List String)) (o : Options)
    (budget : Budget) : Compilation FactGroups := do
  let invariants ← Invariant.find t argumentsOf o.invariantMaxCandidates o.invariantMaxTime budget
  let objects := t.objects.map (·.name)
  let groups := sortGroups
    ((Invariant.usefulGroups invariants t.init).map (expand objects atoms))
  let large := chooseLarge groups o.usePartialEncoding
  let rest := uncovered large atoms
  Compilation.info (toString rest.length ++ " uncovered facts")
  let chosen := sortGroups (large ++ singletons rest)
  return {
    groups := chosen
    mutexGroups := groups ++ singletons (uncovered groups atoms)
    valueNames := chosen.map valueNamesOf }

end FactGroups
end FinitePlanning
