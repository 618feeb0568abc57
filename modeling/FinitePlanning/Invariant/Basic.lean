import FinitePlanning.Atom
import FinitePlanning.Collections
import FinitePlanning.Constraint

/-!
Candidates for invariants. An invariant says that for all values of its parameters at most one of
the atoms that its parts describe is true.
-/

namespace FinitePlanning

/-- A predicate of an invariant. The parameters of the invariant are the arguments at the positions
`order`. The argument at the position `omitted`, if there is one, is counted over all its values. -/
structure InvariantPart where
  predicate : Predicate
  order : List Nat
  omitted : Option Nat
deriving DecidableEq, Hashable, Repr, Inhabited

/-- An atom whose arguments are objects, or the counted argument of an invariant. -/
structure AtomPattern where
  predicate : Predicate
  args : List (Option String)
deriving DecidableEq, Hashable, Repr, Inhabited

/-- How the counted argument is displayed. -/
def countedArgument : String := "?X"

def AtomPattern.text (p : AtomPattern) : String :=
  p.predicate.text ++ "(" ++ ", ".intercalate (p.args.map (·.getD countedArgument)) ++ ")"

/-- The distinct elements of a list in order of first occurrence, each with its positions. -/
def positionsOf (args : List String) : List (String × List Nat) :=
  args.eraseDups.map fun a => (a, args.zipIdx.filterMap fun (b, i) => if b = a then some i else none)

/-- Each element of a list with the other elements. -/
def picks {α : Type} : List α → List (α × List α)
  | [] => []
  | a :: rest => (a, rest) :: (picks rest).map fun (b, others) => (b, a :: others)

/-- All ways to line up `n` elements of a list. -/
def arrangements {α : Type} : Nat → List α → List (List α)
  | 0, _ => [[]]
  | n + 1, l => (picks l).flatMap fun (a, others) => (arrangements n others).map (a :: ·)

/-- All orders of the elements of a list, lexicographic by the positions of the elements. -/
def permutations {α : Type} (l : List α) : List (List α) :=
  arrangements l.length l

namespace InvariantPart

instance : Ord InvariantPart :=
  ⟨compareLex (compareOn predicate) (compareLex (compareOn order) (compareOn omitted))⟩

def arity (p : InvariantPart) : Nat :=
  p.order.length

/-- The parameters of the invariant for an atom with the given arguments. -/
def parameters (p : InvariantPart) (args : List String) : List String :=
  p.order.map fun i => args.getD i default

/-- States that the given terms are the parameters of the invariant for an atom. -/
def assignment (p : InvariantPart) (parameters args : List String) : TermPairs :=
  parameters.zip (p.parameters args)

/-- The atoms that a part describes for values of the parameters. -/
def instantiate (p : InvariantPart) (parameters : List String) : AtomPattern :=
  let free := List.replicate (p.order.length + if p.omitted.isSome then 1 else 0) none
  { predicate := p.predicate
    args := (p.order.zip parameters).foldl (fun args (i, v) => args.set i (some v)) free }

/-- Relates the positions of one argument of another literal to positions in the order of this part.
If an omission is allowed one position may be left over for it. Yields whether an omission is still
allowed. -/
def matchArgument (own : List (String × List Nat)) (omissible : Bool) (arg : String)
    (positions : List Nat) : Option ((List Nat × List (Option Nat)) × Bool) :=
  let image := ((own.lookup arg).getD []).map some
  if positions.length = image.length then some ((positions, image), omissible)
  else if positions.length = image.length + 1 ∧ omissible then
    some ((positions, image ++ [none]), false)
  else none

/-- Relates all arguments of another literal, one after the other. -/
def matchArguments (own : List (String × List Nat)) (omissible : Bool) :
    List (String × List Nat) → Option (List (List Nat × List (Option Nat)))
  | [] => some []
  | (arg, positions) :: rest => do
    let (related, omissible) ← matchArgument own omissible arg positions
    return related :: (← matchArguments own omissible rest)

/-- The part that maps positions of another literal to positions in the order of this part. -/
def ofPositions (predicate : Predicate) (arity : Nat) (mapping : List (Nat × Option Nat)) :
    InvariantPart :=
  { predicate
    order := (List.range arity).map fun i =>
      ((mapping.find? (·.2 == some i)).map (·.1)).getD 0
    omitted := (mapping.find? (·.2.isNone)).map (·.1) }

/-- The parts for the predicate of `other` that relate its arguments to the parameters of the
invariant in the way in which this part relates the arguments of `own` to them. -/
def possibleMatches (p : InvariantPart) (own other : Literal) : List InvariantPart :=
  let args := other.atom.args
  if args.length = p.arity ∨ args.length = p.arity + 1 then
    let omissible := args.length != p.arity
    match matchArguments (positionsOf (p.parameters own.atom.args)) omissible
      (positionsOf args) with
    | none => []
    | some related =>
      let mappings := choices (related.map fun (positions, image) =>
        (permutations image).map positions.zip)
      mappings.map fun mapping => ofPositions other.atom.predicate p.arity mapping.flatten
  else []

def text (p : InvariantPart) : String :=
  p.predicate.text ++ " " ++ " ".intercalate (p.order.map toString)
    ++ match p.omitted with
      | none => ""
      | some i => " [" ++ toString i ++ "]"

end InvariantPart

/-- The parts of an invariant in order, at most one for each predicate, all of the same arity. -/
structure Invariant where
  parts : List InvariantPart
deriving DecidableEq, Hashable, Repr, Inhabited

namespace Invariant

instance : Ord Invariant := ⟨compareOn parts⟩

def ofParts (parts : List InvariantPart) : Invariant :=
  ⟨parts.mergeSort fun a b => (compare a b).isLE⟩

def arity (v : Invariant) : Nat :=
  (v.parts.head?.map (·.arity)).getD 0

def part? (v : Invariant) (predicate : Predicate) : Option InvariantPart :=
  v.parts.find? (·.predicate == predicate)

def withPart (v : Invariant) (part : InvariantPart) : Invariant :=
  ofParts (v.parts ++ [part])

/-- The parameters of an invariant for an atom of one of its predicates. -/
def parameters? (v : Invariant) (a : Atom) : Option (List String) :=
  (v.part? a.predicate).map (·.parameters a.args)

/-- The atoms that an invariant describes for values of its parameters. -/
def instantiate (v : Invariant) (parameters : List String) : List AtomPattern :=
  v.parts.map (·.instantiate parameters)

def text (v : Invariant) : String :=
  "\x7b" ++ ", ".intercalate (v.parts.map (·.text)) ++ "\x7d"

end Invariant
end FinitePlanning
