import FinitePlanning.Diagnostic.Message
import FinitePlanning.UnionFind

/-!
Systems of equalities and inequalities between variables and objects. A system is solvable if one
conjunction of each equality disjunction can be picked such that the equalities picked do not equate
two objects and separate the two terms of some inequality of each inequality disjunction.
-/

namespace FinitePlanning

/-- Equalities or inequalities between pairs of terms. -/
abbrev TermPairs := List (String × String)

namespace TermPairs

def text (relation junction : String) (pairs : TermPairs) : String :=
  "(" ++ junction.intercalate (pairs.map fun (a, b) => a ++ relation ++ b) ++ ")"

end TermPairs

/-- Terms in the order in which they were mentioned first, and the sets of those that are equal, by
their positions. -/
structure TermClasses where
  terms : List String := []
  forest : UnionFind := {}

namespace TermClasses

/-- The number of a term, which is added if it has not been mentioned. -/
def number (c : TermClasses) (term : String) : Nat × TermClasses :=
  match c.terms.idxOf? term with
  | some i => (i, c)
  | none => (c.terms.length, ⟨c.terms ++ [term], c.forest.grow⟩)

def equate (c : TermClasses) (pair : String × String) : TermClasses :=
  let (a, c) := c.number pair.1
  let (b, c) := c.number pair.2
  { c with forest := c.forest.unite a b }

def ofEqualities (equalities : TermPairs) : TermClasses :=
  equalities.foldl equate {}

/-- The one of two terms of a class that may stand for it: an object, or the smaller variable. There
is none if both are objects. -/
def prefer? (current term : String) : Option String :=
  match isVariable current, isVariable term with
  | false, false => if current ≠ term then none else some current
  | true, false => some term
  | true, true => some (if term < current then term else current)
  | false, true => some current

/-- The term that may stand for a class after one more of its terms. -/
def standing? (current : Option String) (term : String) : Option String :=
  match current with
  | none => some term
  | some current => prefer? current term

/-- Enters the term that stands for a class at its root, for numbered terms one after another. The
entry in front counts. -/
def best? (forest : UnionFind) (best : List (Nat × String)) :
    List (String × Nat) → Option (List (Nat × String) × UnionFind)
  | [] => some (best, forest)
  | (term, i) :: rest => do
    let (root, forest) := forest.find i
    let standing ← standing? (best.lookup root) term
    best? forest ((root, standing) :: best) rest

/-- The terms, each with the one that was entered at the root of its class. -/
def represented? (forest : UnionFind) (best : List (Nat × String)) :
    List (String × Nat) → Option (List (String × String))
  | [] => some []
  | (term, i) :: rest => do
    let (root, forest) := forest.find i
    let representative ← best.lookup root
    (represented? forest best rest).map ((term, representative) :: ·)

end TermClasses

/-- Maps each term to the representative of its class, unless two objects are made equal. -/
def TermPairs.mapping? (equalities : TermPairs) : Option (List (String × String)) := do
  let c := TermClasses.ofEqualities equalities
  let (best, forest) ← TermClasses.best? c.forest [] c.terms.zipIdx
  TermClasses.represented? forest best c.terms.zipIdx

structure ConstraintSystem where
  /-- Disjunctions of conjunctions of equalities. -/
  equalities : List (List TermPairs) := []
  /-- Disjunctions of inequalities. An empty one cannot be satisfied. -/
  inequalities : List TermPairs := []
deriving DecidableEq, Repr, Inhabited

namespace ConstraintSystem

def withEqualities (s : ConstraintSystem) (conjunction : TermPairs) : ConstraintSystem :=
  { s with equalities := s.equalities ++ [[conjunction]] }

def withAlternatives (s : ConstraintSystem) (alternatives : List TermPairs) : ConstraintSystem :=
  { s with equalities := s.equalities ++ [alternatives] }

def withInequalities (s : ConstraintSystem) (disjunction : TermPairs) : ConstraintSystem :=
  { s with inequalities := s.inequalities ++ [disjunction] }

/-- The conjunction of two systems. -/
def combine (s t : ConstraintSystem) : ConstraintSystem :=
  { equalities := s.equalities ++ t.equalities, inequalities := s.inequalities ++ t.inequalities }

/-- Whether the terms of some inequality have different representatives. -/
def separates (mapping : List (String × String)) (disjunction : TermPairs) : Bool :=
  let representative (t : String) := (mapping.lookup t).getD t
  disjunction.any fun (a, b) => representative a != representative b

/-- Whether a choice of equalities satisfies inequality disjunctions. -/
def isSatisfiedBy (equalities : TermPairs) (inequalities : List TermPairs) : Bool :=
  match equalities.mapping? with
  | none => false
  | some mapping => inequalities.all (separates mapping)

/-- The equalities of a choice of one conjunction for each disjunction. -/
def picked (choice : List Nat) (disjunctions : List (List TermPairs)) : TermPairs :=
  (choice.zip disjunctions).flatMap fun (i, alternatives) => alternatives.getD i []

/-- The next choice if there is one. The first position counts fastest. -/
def next? : List Nat → List (List TermPairs) → Option (List Nat)
  | i :: choice, alternatives :: rest =>
    if i + 1 < alternatives.length then some ((i + 1) :: choice)
    else (next? choice rest).map (0 :: ·)
  | _, _ => none

/-- At least how many choices come after one. -/
def remaining : List Nat → List (List TermPairs) → Nat
  | i :: choice, alternatives :: rest =>
    alternatives.length - 1 - i + max 1 alternatives.length * remaining choice rest
  | _, _ => 0

theorem remaining_next?_lt {choice later : List Nat} {disjunctions : List (List TermPairs)}
    (h : next? choice disjunctions = some later) :
    remaining later disjunctions < remaining choice disjunctions := by
  fun_induction next? choice disjunctions generalizing later with
  | case1 i choice alternatives rest hi =>
      obtain rfl := Option.some.inj h
      simp only [remaining]
      omega
  | case2 i choice alternatives rest hi ih =>
      obtain ⟨tail, htail, rfl⟩ := Option.map_eq_some_iff.mp h
      have hmul := Nat.mul_le_mul_left (max 1 alternatives.length) (ih htail)
      rw [Nat.mul_succ] at hmul
      simp only [remaining]
      omega
  | case3 => cases h

/-- Tries a choice and all choices after it. -/
def searchFrom (s : ConstraintSystem) (choice : List Nat) : Bool :=
  if isSatisfiedBy (picked choice s.equalities) s.inequalities then true
  else match h : next? choice s.equalities with
    | none => false
    | some later =>
      have := remaining_next?_lt h
      s.searchFrom later
termination_by remaining choice s.equalities

/-- Whether some choice satisfies the inequalities. -/
def isSolvable (s : ConstraintSystem) : Bool :=
  if s.equalities.any (·.isEmpty) then false
  else s.searchFrom (.replicate s.equalities.length 0)

def text (s : ConstraintSystem) : String :=
  let disjunction (alternatives : List TermPairs) :=
    "(" ++ " or ".intercalate (alternatives.map (TermPairs.text " = " " and ")) ++ ")"
  " and ".intercalate
    (s.equalities.map disjunction ++ s.inequalities.map (TermPairs.text " != " " or "))

end ConstraintSystem
end FinitePlanning
