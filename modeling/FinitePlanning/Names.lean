/-!
Supplies of fresh names. A name that was reserved or handed out before is never handed out again.
-/

namespace FinitePlanning

/-- The first of the candidates numbered from `start` that is not taken, with its number. One of any
`taken.length + 1` different candidates is free. -/
def firstFree (taken : List String) (candidate : Nat → String) (start : Nat) : Nat × String :=
  let numbers := (List.range (taken.length + 1)).map (start + ·)
  let number := (numbers.find? (candidate · ∉ taken)).getD (start + taken.length)
  (number, candidate number)

/-- Names of variables: `?x` becomes `?x1`, `?x2`, ... when it is taken. -/
structure VariableNames where
  used : List String := []
deriving Repr, Inhabited

namespace VariableNames

def fresh (names : VariableNames) (base : String) : String × VariableNames :=
  let name := if base ∈ names.used then
      (firstFree names.used (fun i => base ++ toString i) 1).2
    else base
  (name, ⟨name :: names.used⟩)

/-- Marks a name as used. Yields whether it was free. -/
def reserve (names : VariableNames) (name : String) : Bool × VariableNames :=
  if name ∈ names.used then (false, names) else (true, ⟨name :: names.used⟩)

end VariableNames

/-- Names of auxiliary predicates: `new-axiom@0`, `new-axiom@1`, ... -/
structure AxiomNames where
  taken : List String := []
  next : Nat := 0
deriving Repr, Inhabited

namespace AxiomNames

/-- What the names of auxiliary predicates begin with. -/
def base : String := "new-axiom"

def fresh (names : AxiomNames) (base : String) : String × AxiomNames :=
  let (number, name) := firstFree names.taken (fun i => base ++ "@" ++ toString i) names.next
  (name, ⟨name :: names.taken, number + 1⟩)

/-- Marks a name as taken. Yields whether it was free. -/
def reserve (names : AxiomNames) (name : String) : Bool × AxiomNames :=
  if name ∈ names.taken then (false, names)
  else (true, { names with taken := name :: names.taken })

end AxiomNames
end FinitePlanning
