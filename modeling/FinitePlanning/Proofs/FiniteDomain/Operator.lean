import Mathlib.Data.List.Nodup
import FinitePlanning.Proofs.Collections
import FinitePlanning.Proofs.Semantics.FiniteDomain

/-!
Applicability and results of operators, also of operators that were put in order.
-/

namespace FinitePlanning
namespace FiniteDomain

namespace Operator

/-- Effects that agree with a valuation lead to it if they set what differs. -/
theorem foldl_perform {σ τ : Valuation} {es : List Effect}
    (hagree : ∀ e ∈ es, FactsHold σ e.condition → τ e.var = e.after) {ρ : Valuation}
    (hset : ∀ v, ρ v = τ v ∨ ∃ e ∈ es, FactsHold σ e.condition ∧ e.var = v) :
    es.foldl (perform σ) ρ = τ := by
  induction es generalizing ρ with
  | nil =>
      funext v
      simpa using hset v
  | cons e es ih =>
      rw [List.foldl_cons]
      refine ih (fun d hd => hagree d (List.mem_cons_of_mem e hd)) fun v => ?_
      by_cases he : FactsHold σ e.condition
      · by_cases hv : v = e.var
        · subst hv
          refine .inl ?_
          rw [hagree e List.mem_cons_self he]
          simp [perform, he, Fact.set, Effect.afterFact]
        · refine (hset v).imp (fun h => ?_) ?_
          · simpa [perform, he, Fact.set, Effect.afterFact, hv] using h
          · rintro ⟨d, hd, hcond, hdv⟩
            rcases List.mem_cons.mp hd with rfl | hd
            · exact absurd hdv.symm hv
            · exact ⟨d, hd, hcond, hdv⟩
      · refine (hset v).imp (fun h => by simpa [perform, he] using h) ?_
        rintro ⟨d, hd, hcond, hdv⟩
        rcases List.mem_cons.mp hd with rfl | hd
        · exact absurd hcond he
        · exact ⟨d, hd, hcond, hdv⟩

theorem factsHold_orderedSet {σ : Valuation} {fs : List Fact} :
    FactsHold σ (orderedSet fs) ↔ FactsHold σ fs := by
  simp [FactsHold]

variable {o : Operator} {σ τ : Valuation} {name : String} {prevail : List Fact}
  {effects : List Effect} {cost : Int} {f : Fact}

/-- An effect that takes place makes a fact true. -/
def Sets (o : Operator) (σ : Valuation) (f : Fact) : Prop :=
  ∃ e ∈ o.effects, FactsHold σ e.condition ∧ e.afterFact = f

/-- The effects that take place give no variable different values. -/
def IsConsistent (o : Operator) (σ : Valuation) : Prop :=
  ∀ f g, o.Sets σ f → o.Sets σ g → f.var = g.var → f.value = g.value

/-- Effects on different variables are never in conflict. -/
theorem isConsistent_of_nodup (h : (o.effects.map (·.var)).Nodup) : o.IsConsistent σ := by
  rintro f g ⟨d, hd, -, rfl⟩ ⟨e, he, -, rfl⟩ hvar
  rw [List.inj_on_of_nodup_map h hd he hvar]

/-- Effects that agree with a valuation are not in conflict. -/
theorem isConsistent_of_holds (h : ∀ f, o.Sets σ f → f.Holds τ) : o.IsConsistent σ := by
  intro f g hf hg hvar
  exact (h f hf).symm.trans (hvar ▸ h g hg)

theorem mem_preconditions :
    f ∈ o.preconditions ↔ f ∈ o.prevail ∨ ∃ e ∈ o.effects, e.beforeFact? = some f := by
  simp [preconditions]

theorem applicable_iff : o.Applicable σ ↔
    FactsHold σ o.prevail ∧ ∀ e ∈ o.effects, ∀ f ∈ e.beforeFact?, f.Holds σ := by
  rw [Applicable]
  constructor
  · intro h
    exact ⟨fun f hf => h f (mem_preconditions.mpr (.inl hf)),
      fun e he f hf => h f (mem_preconditions.mpr (.inr ⟨e, he, hf⟩))⟩
  · intro h f hf
    rcases mem_preconditions.mp hf with hf | ⟨e, he, hf⟩
    · exact h.1 f hf
    · exact h.2 e he f hf

theorem mem_effects_ofParts {e : Effect} : e ∈ (ofParts name prevail effects cost).effects ↔
    ∃ d ∈ effects, e = { d with condition := orderedSet d.condition } := by
  simp only [ofParts, mem_orderedSet, List.mem_map]
  exact exists_congr fun d => and_congr_right fun _ => eq_comm

theorem applicable_ofParts : (ofParts name prevail effects cost).Applicable σ ↔
    FactsHold σ prevail ∧ ∀ e ∈ effects, ∀ f ∈ e.beforeFact?, f.Holds σ := by
  rw [applicable_iff]
  refine and_congr factsHold_orderedSet ⟨fun h e he => ?_, fun h e he => ?_⟩
  · exact h { e with condition := orderedSet e.condition }
      (mem_effects_ofParts.mpr ⟨e, he, rfl⟩)
  · obtain ⟨d, hd, rfl⟩ := mem_effects_ofParts.mp he
    exact h d hd

theorem sets_ofParts : (ofParts name prevail effects cost).Sets σ f ↔
    ∃ e ∈ effects, FactsHold σ e.condition ∧ e.afterFact = f := by
  constructor
  · rintro ⟨e, he, hc, rfl⟩
    obtain ⟨d, hd, rfl⟩ := mem_effects_ofParts.mp he
    exact ⟨d, hd, factsHold_orderedSet.mp hc, rfl⟩
  · rintro ⟨e, he, hc, rfl⟩
    exact ⟨_, mem_effects_ofParts.mpr ⟨e, he, rfl⟩, factsHold_orderedSet.mpr hc, rfl⟩

/-- An operator leads to a valuation that agrees with what it sets, if it sets what
differs. -/
theorem apply_eq (hagree : ∀ f, o.Sets σ f → f.Holds τ)
    (hset : ∀ v, τ v ≠ σ v → o.Sets σ ⟨v, τ v⟩) : o.apply σ = τ := by
  refine foldl_perform (fun e he hc => hagree _ ⟨e, he, hc, rfl⟩) fun v => ?_
  by_cases hv : τ v = σ v
  · exact .inl hv.symm
  · obtain ⟨e, he, hc, hafter⟩ := hset v hv
    exact .inr ⟨e, he, hc, congrArg Fact.var hafter⟩

theorem exists_apply (h : o.IsConsistent σ) : ∃ τ : Valuation,
    (∀ f, o.Sets σ f → f.Holds τ) ∧ ∀ v, τ v ≠ σ v → o.Sets σ ⟨v, τ v⟩ := by
  classical
  refine ⟨fun v => if hv : ∃ x, o.Sets σ ⟨v, x⟩ then hv.choose else σ v, fun f hf => ?_,
    fun v hne => ?_⟩
  · have hex : ∃ x, o.Sets σ ⟨f.var, x⟩ := ⟨f.value, hf⟩
    rw [Fact.Holds, dif_pos hex]
    exact h _ _ hex.choose_spec hf rfl
  · by_cases hex : ∃ x, o.Sets σ ⟨v, x⟩
    · simp only [dif_pos hex]
      exact hex.choose_spec
    · simp only [dif_neg hex] at hne
      exact absurd rfl hne

theorem IsConsistent.holds_apply (h : o.IsConsistent σ) (hf : o.Sets σ f) :
    f.Holds (o.apply σ) := by
  obtain ⟨τ, hagree, hset⟩ := exists_apply h
  rw [apply_eq hagree hset]
  exact hagree f hf

theorem IsConsistent.sets_of_ne (h : o.IsConsistent σ) {v : Nat} (hv : o.apply σ v ≠ σ v) :
    o.Sets σ ⟨v, o.apply σ v⟩ := by
  obtain ⟨τ, hagree, hset⟩ := exists_apply h
  rw [apply_eq hagree hset] at hv ⊢
  exact hset v hv

end Operator

end FiniteDomain
end FinitePlanning
