import Std.Data.HashMap
import FinitePlanning.Atom
import FinitePlanning.Collections
import FinitePlanning.FiniteDomain.Basic

/-!
Atoms as facts of variables. Each variable stands for a group of atoms of which at most one is true.
Its values are the atoms of the group, and a last one for the case that none of them is true.
-/

namespace FinitePlanning
namespace FiniteDomain

structure Dictionary where
  /-- The number of values of each variable. -/
  ranges : Array Nat
  /-- The facts that stand for each atom, in the order of their variables. -/
  index : Std.HashMap Atom (List Fact)

/-- The values that are left for each variable. -/
abbrev ValueSets := List (Nat × List Nat)

namespace ValueSets

/-- Requires a fact. -/
def require (sets : ValueSets) (f : Fact) : Option ValueSets :=
  match sets.lookup f.var with
  | none => some (sets ++ [(f.var, [f.value])])
  | some values => if f.value ∈ values then some sets else none

/-- Excludes a value of a variable that is restricted already. -/
def exclude (sets : ValueSets) (f : Fact) : Option ValueSets :=
  if sets.lookup f.var = some [f.value] then none
  else some (sets.map fun (var, values) =>
    (var, if var = f.var then values.filter (· ≠ f.value) else values))

/-- Variables with fewer values come first. -/
def before (a b : Nat × List Nat) : Bool :=
  a.2.length < b.2.length || (a.2.length = b.2.length && a.1 ≤ b.1)

/-- All assignments of the values that are left. -/
def assignments (sets : ValueSets) : List Assignment :=
  let facts := (sets.mergeSort before).map fun (var, values) => values.map (Fact.mk var)
  (choices facts).map (·.mergeSort fun f g => f.var ≤ g.var)

end ValueSets

namespace Dictionary

def ofGroups (groups : List (List Atom)) : Dictionary where
  ranges := (groups.map (·.length + 1)).toArray
  index := groups.zipIdx.foldl (fun index (group, var) =>
    group.zipIdx.foldl (fun index (atom, value) =>
      index.alter atom fun facts => some (facts.getD [] ++ [⟨var, value⟩])) index) {}

variable (d : Dictionary)

/-- The facts that stand for an atom, none for an atom that is not encoded. -/
def facts (a : Atom) : List Fact :=
  d.index.getD a []

def range (var : Nat) : Nat :=
  d.ranges.getD var 0

/-- The value of a variable when no atom of its group is true. -/
def noneOfThose (var : Nat) : Nat :=
  d.range var - 1

/-- Requires that an atom is true. -/
def requireAtom (sets : ValueSets) (a : Atom) : Option ValueSets :=
  (d.facts a).foldlM ValueSets.require sets

/-- Requires that an atom is false. Variables that are restricted already exclude it. Otherwise a
variable with the fewest values is restricted to the other ones. -/
def excludeAtom (sets : ValueSets) (a : Atom) : Option ValueSets :=
  let facts := d.facts a
  match facts.filter fun f => (sets.lookup f.var).isSome with
  | [] => match facts.minOn? fun f => d.range f.var with
    | none => some sets
    | some f => some (sets ++ [(f.var, (List.range (d.range f.var)).filter (· ≠ f.value))])
  | restricted => restricted.foldlM ValueSets.exclude sets

/-- The values with which all literals hold, unless they contradict each other. -/
def restrict (literals : List Literal) : Option ValueSets := do
  let positive := (literals.filter (!·.negated)).map (·.atom)
  let negative := (literals.filter (·.negated)).map (·.atom)
  negative.foldlM d.excludeAtom (← positive.foldlM d.requireAtom [])

/-- The assignments with which all literals hold, unless they contradict each other. -/
def assignments? (literals : List Literal) : Option (List Assignment) :=
  (d.restrict literals).map (·.assignments)

end Dictionary
end FiniteDomain
end FinitePlanning
