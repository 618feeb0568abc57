/-!
Lists as collections: choices of one element from each of several lists, finite sets as lists that
are in order and without repetition, and totals of numbers.
-/

namespace FinitePlanning

/-- All ways to choose one element of each list, the choice from the last list varying fastest. -/
def choices {α : Type} : List (List α) → List (List α)
  | [] => [[]]
  | alternatives :: rest =>
    let tails := choices rest
    alternatives.flatMap fun a => tails.map (a :: ·)

/-- Leaves one of equal neighbours. -/
def dropRepeats {α : Type} [DecidableEq α] (l : List α) : List α :=
  l.foldr (fun a rest => if rest.head? = some a then rest else a :: rest) []

/-- The elements of a list in order, each once. -/
def orderedSet {α : Type} [Ord α] [DecidableEq α] (l : List α) : List α :=
  dropRepeats (l.mergeSort fun a b => (compare a b).isLE)

/-- The total of a list of numbers. -/
def total (ns : List Nat) : Nat :=
  ns.foldr (· + ·) 0

@[simp] theorem total_nil : total [] = 0 := rfl

@[simp] theorem total_cons (n : Nat) (ns : List Nat) : total (n :: ns) = n + total ns := rfl

@[simp] theorem total_append (ms ns : List Nat) : total (ms ++ ns) = total ms + total ns := by
  induction ms with
  | nil => simp
  | cons m ms ih => simp [ih, Nat.add_assoc]

end FinitePlanning
