import Mathlib
import FinitePlanning.Proofs.Invariant.Constraints

/-!
What the search for a solution decides. A system is solvable if its variables have
values among the objects and further things that satisfy it. The mapping of
equalities represents the terms by the classes of what the equalities force to be
equal, and there is none if they force two objects to be equal.
-/

namespace FinitePlanning

/-- The values of terms: the objects, and further things. -/
abbrev Value (E : Type*) := {x : String // isVariable x = false} ⊕ E

/-- Each object stands for itself. -/
def DenotesObjects {E : Type*} (σ : String → Value E) : Prop :=
  ∀ x (h : isVariable x = false), σ x = .inl ⟨x, h⟩

namespace ConstraintSystem

variable {E : Type*} {s : ConstraintSystem}

/-- Only which terms have the same value matters to a system. -/
theorem SatisfiedBy.congr {V W : Type*} {σ : String → V} {τ : String → W}
    (h : s.SatisfiedBy σ) (hτ : ∀ a b, τ a = τ b ↔ σ a = σ b) : s.SatisfiedBy τ where
  equalities alternatives ha := by
    obtain ⟨c, hc, hσ⟩ := h.equalities alternatives ha
    exact ⟨c, hc, fun p hp => (hτ p.1 p.2).mpr (hσ p hp)⟩
  inequalities d hd := by
    obtain ⟨p, hp, hne⟩ := h.inequalities d hd
    exact ⟨p, hp, fun he => hne ((hτ p.1 p.2).mp he)⟩

/-- A value is named by its object, or by some term that has it. -/
theorem exists_fixesObjects {σ : String → Value E} (hσ : DenotesObjects σ) :
    ∃ τ, FixesObjects τ ∧ ∀ a b, τ a = τ b ↔ σ a = σ b := by
  let name : Value E → String
    | .inl o => o.1
    | .inr e => Function.invFun σ (.inr e)
  have hname : ∀ x, σ (name (σ x)) = σ x := by
    intro x
    cases hx : σ x with
    | inl o => exact hσ o.1 o.2
    | inr e => exact Function.invFun_eq ⟨x, hx⟩
  refine ⟨name ∘ σ, fun x hx => ?_, fun a b => ⟨fun h => ?_, fun h => congrArg name h⟩⟩
  · rw [Function.comp_apply, hσ x hx]
  · rw [← hname a, ← hname b]
    exact congrArg σ h

/-- Variables that stand for themselves are further things. -/
theorem exists_denotesObjects [Infinite E] {τ : String → String} (hτ : FixesObjects τ) :
    ∃ σ : String → Value E, DenotesObjects σ ∧ ∀ a b, σ a = σ b ↔ τ a = τ b := by
  have hchar : Countable Char := Function.Injective.countable fun _ _ => Char.toNat_inj.mp
  have hstring : Countable String := Function.Injective.countable fun _ _ => String.toList_inj.mp
  obtain ⟨number, hnumber⟩ := exists_injective_nat String
  let value (x : String) : Value E :=
    if h : isVariable x = false then .inl ⟨x, h⟩ else .inr (Infinite.natEmbedding E (number x))
  have hvalue : Function.Injective value := by
    intro x y hxy
    by_cases hx : isVariable x = false <;> by_cases hy : isVariable y = false
    · simpa [value, hx, hy] using hxy
    · simp [value, hx, hy] at hxy
    · simp [value, hx, hy] at hxy
    · exact hnumber ((Infinite.natEmbedding E).injective (by simpa [value, hx, hy] using hxy))
  refine ⟨value ∘ τ, fun x hx => ?_, fun a b => hvalue.eq_iff⟩
  simp only [Function.comp_apply, hτ x hx, value, dif_pos hx]

/-- A system is solvable if and only if it is satisfied by values of its terms among
the objects and infinitely many further things. -/
theorem isSolvable_iff_exists_values [Infinite E] :
    s.isSolvable = true ↔ ∃ σ : String → Value E, DenotesObjects σ ∧ s.SatisfiedBy σ := by
  rw [isSolvable_iff]
  constructor
  · rintro ⟨τ, hτ, hs⟩
    obtain ⟨σ, hσ, hsame⟩ := exists_denotesObjects (E := E) hτ
    exact ⟨σ, hσ, hs.congr hsame⟩
  · rintro ⟨σ, hσ, hs⟩
    obtain ⟨τ, hτ, hsame⟩ := exists_fixesObjects hσ
    exact ⟨τ, hτ, hs.congr hsame⟩

/-- Solvability is decided for each system, and each conjunction of equalities is
solved. -/
theorem decides_solvability [Infinite E] (s : ConstraintSystem) (eqs : TermPairs) :
    (s.isSolvable = true ↔ ∃ σ : String → Value E, DenotesObjects σ ∧ s.SatisfiedBy σ) ∧
    (eqs.mapping? = none ↔
      ∃ a b, isVariable a = false ∧ isVariable b = false ∧ a ≠ b ∧ eqs.Forces a b) ∧
    ∀ m, eqs.mapping? = some m → eqs.RepresentedBy m :=
  ⟨isSolvable_iff_exists_values, TermPairs.mapping?_eq_none_iff,
    fun _ h => TermPairs.representedBy_of_mapping? h⟩

section Choice

/-- One of two equalities is to be picked. -/
def choice : ConstraintSystem where
  equalities := [[[("?x", "?y")], [("?x", "?z"), ("?z", "a")]]]
  inequalities := [[("?x", "?y")]]

/-- The equalities of two classes, one of them with an object. -/
def identified : TermPairs := [("?y", "?x"), ("?x", "a"), ("?z", "?w")]

theorem choice_decides_solvability :
    (∃ σ : String → Value ℕ, DenotesObjects σ ∧ choice.SatisfiedBy σ) ∧
    identified.RepresentedBy
      [("?y", "a"), ("?x", "a"), ("a", "a"), ("?z", "?w"), ("?w", "?w")] :=
  have h := decides_solvability (E := ℕ) choice identified
  ⟨h.1.mp (by cbv), h.2.2 _ (by cbv)⟩

end Choice

end ConstraintSystem
end FinitePlanning
