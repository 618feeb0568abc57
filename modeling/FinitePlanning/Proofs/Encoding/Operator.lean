import FinitePlanning.Proofs.Encoding.EffectTable
import FinitePlanning.Proofs.FiniteDomain.Operator

/-!
Operators for the assignments of a precondition. Of the operators of an action at
most one is applicable in a state; it sets each variable to its value in the next
state, as far as the table of effects does.
-/

namespace FinitePlanning
namespace FiniteDomain

namespace Encoder

open EffectTable

variable {e : Encoder} {σ : Valuation}

theorem exists_mem_simplifyBinary {t : EffectTable} {f : Fact} {as : List Assignment} :
    (f, as) ∈ e.simplifyBinary t ↔ ∃ bs, (f, bs) ∈ t ∧
      as = if e.dictionary.range f.var = 2 ∧ !t.mentions ⟨f.var, 1 - f.value⟩
        then dropOtherValue ⟨f.var, 1 - f.value⟩ bs else bs := by
  simp only [simplifyBinary, List.mem_map, Prod.exists]
  constructor
  · rintro ⟨g, bs, h, heq⟩
    split at heq
    · obtain ⟨rfl, rfl⟩ := Prod.mk.inj heq
      exact ⟨bs, h, by rw [if_pos (by assumption)]⟩
    · obtain ⟨rfl, rfl⟩ := Prod.mk.inj heq
      exact ⟨bs, h, by rw [if_neg (by assumption)]⟩
  · rintro ⟨bs, h, rfl⟩
    refine ⟨f, bs, h, ?_⟩
    split <;> rfl

theorem sets_simplifyBinary {t : EffectTable} {f : Fact} (h : t.Sets σ f) :
    (e.simplifyBinary t).Sets σ f := by
  obtain ⟨a, ⟨as, hmem, ha⟩, hσ⟩ := h
  have hfilter : ∀ other, FactsHold σ (a.filter (· ≠ other)) :=
    fun other g hg => hσ g (List.mem_filter.mp hg).1
  by_cases hc : e.dictionary.range f.var = 2 ∧ !t.mentions ⟨f.var, 1 - f.value⟩
  · have hmem' := exists_mem_simplifyBinary.mpr ⟨as, hmem, (if_pos hc).symm⟩
    by_cases hempty : (as.map fun b : Assignment =>
        b.filter (· ≠ (⟨f.var, 1 - f.value⟩ : Fact))).any (·.isEmpty)
    · refine ⟨[], ⟨_, hmem', ?_⟩, factsHold_nil σ⟩
      rw [dropOtherValue, if_pos hempty]
      exact List.mem_singleton_self []
    · refine ⟨_, ⟨_, hmem', ?_⟩, hfilter ⟨f.var, 1 - f.value⟩⟩
      rw [dropOtherValue, if_neg hempty]
      exact List.mem_map_of_mem ha
  · exact ⟨a, ⟨as, exists_mem_simplifyBinary.mpr ⟨as, hmem, (if_neg hc).symm⟩, ha⟩, hσ⟩

/-- What is simplified makes no other fact true, but it may also set a value that a
variable has already and that nothing changes. -/
theorem sets_of_sets_simplifyBinary {t : EffectTable} {f : Fact}
    (hσ : σ f.var < e.dictionary.range f.var) (hvalue : f.value < e.dictionary.range f.var)
    (h : (e.simplifyBinary t).Sets σ f) :
    t.Sets σ f ∨ f.Holds σ ∧ e.dictionary.range f.var = 2 ∧
      t.mentions ⟨f.var, 1 - f.value⟩ = false := by
  obtain ⟨a, ⟨as, hmem, ha⟩, hasg⟩ := h
  obtain ⟨bs, hbs, rfl⟩ := exists_mem_simplifyBinary.mp hmem
  split at ha
  next hc =>
    by_cases hf : f.Holds σ
    · exact .inr ⟨hf, hc.1, by simpa using hc.2⟩
    · left
      -- the variable has its other value, so that requiring this says nothing
      have hother : Fact.Holds σ ⟨f.var, 1 - f.value⟩ := by
        unfold Fact.Holds at hf ⊢
        dsimp only
        rw [hc.1] at hσ hvalue
        omega
      have hback : ∀ b : Assignment, FactsHold σ (b.filter (· ≠ ⟨f.var, 1 - f.value⟩)) →
          FactsHold σ b := by
        intro b hb g hg
        by_cases hgo : g = ⟨f.var, 1 - f.value⟩
        · exact hgo ▸ hother
        · exact hb g (List.mem_filter.mpr ⟨hg, by simpa using hgo⟩)
      have hcase : ∃ b ∈ bs, FactsHold σ b := by
        simp only [dropOtherValue] at ha
        split at ha
        next hempty =>
          obtain ⟨c, hc, hce⟩ := List.any_eq_true.mp hempty
          obtain ⟨b, hb, rfl⟩ := List.mem_map.mp hc
          refine ⟨b, hb, hback b ?_⟩
          rw [List.isEmpty_iff.mp hce]
          exact factsHold_nil σ
        next =>
          obtain ⟨b, hb, rfl⟩ := List.mem_map.mp ha
          exact ⟨b, hb, hback b hasg⟩
      obtain ⟨b, hb, hbσ⟩ := hcase
      exact ⟨b, ⟨bs, hbs, hb⟩, hbσ⟩
  next => exact .inl ⟨a, ⟨bs, hbs, ha⟩, hasg⟩

end Encoder

namespace ActionEncoding

open EffectTable

variable {x : ActionEncoding} {p : Assignment} {σ τ : Valuation} {o : Operator}

theorem mem_effectsOn {entry : Fact × List Assignment} {d : Effect} :
    d ∈ effectsOn p entry ↔ entry.1 ∉ p ∧ ∃ a ∈ entry.2, ∃ c, p.residual? a = some c ∧
      d = ⟨entry.1.var, p.value? entry.1.var, entry.1.value, c⟩ := by
  simp only [effectsOn]
  split
  next h => simp [h]
  next h =>
    simp only [List.mem_map, List.mem_filterMap, h, not_false_eq_true, true_and]
    constructor
    · rintro ⟨c, ⟨a, ha, hc⟩, rfl⟩
      exact ⟨a, ha, c, hc, rfl⟩
    · rintro ⟨a, ha, c, hc, rfl⟩
      exact ⟨c, ⟨a, ha, hc⟩, rfl⟩

/-- The operator of a precondition, taken apart. -/
theorem operator_eq_some (h : x.operator? p = some o) :
    x.simplified.flatMap (effectsOn p) ≠ [] ∧ o = .ofParts x.name
      (p.filter (·.var ∉ (x.simplified.flatMap (effectsOn p)).map (·.var)))
      (x.simplified.flatMap (effectsOn p)) x.cost := by
  simp only [operator?] at h
  split at h
  next => cases h
  next hne =>
    refine ⟨fun hnil => hne (List.isEmpty_iff.mpr hnil), ?_⟩
    simpa using h.symm

theorem flatMap_effectsOn_eq_nil (h : x.operator? p = none) :
    x.simplified.flatMap (effectsOn p) = [] := by
  simp only [operator?] at h
  split at h
  next hempty => simpa using hempty
  next => cases h

/-- The operator is applicable if and only if its precondition holds. -/
theorem applicable_iff (hp : (p.map (·.var)).Nodup) (h : x.operator? p = some o) :
    o.Applicable σ ↔ FactsHold σ p := by
  obtain ⟨-, rfl⟩ := operator_eq_some h
  have hbefore : ∀ d ∈ x.simplified.flatMap (effectsOn p), d.before = p.value? d.var := by
    intro d hd
    obtain ⟨entry, -, hd⟩ := List.mem_flatMap.mp hd
    obtain ⟨-, a, -, c, -, rfl⟩ := mem_effectsOn.mp hd
    rfl
  simp only [Operator.Applicable, Operator.preconditions, Operator.ofParts,
    Operator.factsHold_orderedSet, factsHold_append]
  constructor
  · rintro ⟨hprevail, hchange⟩ f hf
    by_cases hv : f.var ∈ (x.simplified.flatMap (effectsOn p)).map (·.var)
    · obtain ⟨d, hd, hdv⟩ := List.mem_map.mp hv
      refine hchange f (List.mem_filterMap.mpr
        ⟨{ d with condition := orderedSet d.condition }, ?_, ?_⟩)
      · exact mem_orderedSet.mpr (List.mem_map_of_mem hd)
      · rw [Effect.beforeFact?]
        dsimp only
        rw [hbefore d hd, hdv, Assignment.eq_value?_of_mem hp hf]
        rfl
    · exact hprevail f (List.mem_filter.mpr ⟨hf, by simpa using hv⟩)
  · intro hall
    refine ⟨fun f hf => hall f (List.mem_filter.mp hf).1, fun f hf => ?_⟩
    obtain ⟨d', hd', hf⟩ := List.mem_filterMap.mp hf
    obtain ⟨d, hd, rfl⟩ := List.mem_map.mp (mem_orderedSet.mp hd')
    rw [Effect.beforeFact?] at hf
    dsimp only at hf
    rw [hbefore d hd] at hf
    obtain ⟨value, hv, rfl⟩ := Option.map_eq_some_iff.mp hf
    exact hall _ (Assignment.value?_eq_some hv)

theorem filter_operators (hp : ∀ p ∈ x.preconditions, (p.map (·.var)).Nodup) :
    x.operators.filter (fun o => decide (o.Applicable σ)) =
      (x.preconditions.filter fun p => decide (FactsHold σ p)).filterMap x.operator? := by
  rw [operators]
  generalize x.preconditions = ps at hp
  induction ps with
  | nil => rfl
  | cons p ps ih =>
      obtain ⟨hhead, htail⟩ := List.forall_mem_cons.mp hp
      have ih := ih htail
      cases ho : x.operator? p with
      | none =>
          rw [List.filterMap_cons_none ho, ih, List.filter_cons]
          split
          · rw [List.filterMap_cons_none ho]
          · rfl
      | some o =>
          rw [List.filterMap_cons_some ho, List.filter_cons, List.filter_cons, ih]
          simp only [applicable_iff hhead ho]
          split
          · rw [List.filterMap_cons_some ho]
          · rfl

/-- A fact that the table sets and the precondition does not require has an effect
whose condition holds. -/
theorem exists_effect_of_sets (hp : FactsHold σ p) {f : Fact} (hf : f ∉ p)
    (h : x.simplified.Sets σ f) : ∃ d ∈ x.simplified.flatMap (effectsOn p),
      FactsHold σ d.condition ∧ d.var = f.var ∧ d.after = f.value := by
  obtain ⟨a, ⟨as, hmem, ha⟩, hσ⟩ := h
  obtain ⟨c, hc⟩ := Assignment.exists_residual hp hσ
  refine ⟨⟨f.var, p.value? f.var, f.value, c⟩, List.mem_flatMap.mpr ⟨_, hmem, ?_⟩, ?_, rfl, rfl⟩
  · exact mem_effectsOn.mpr ⟨hf, a, ha, c, hc, rfl⟩
  · exact (Assignment.factsHold_residual hp hc).mpr hσ

theorem sets_of_mem_effects (hp : FactsHold σ p) {d : Effect}
    (hd : d ∈ x.simplified.flatMap (effectsOn p)) (hσ : FactsHold σ d.condition) :
    x.simplified.Sets σ d.afterFact := by
  obtain ⟨⟨f, as⟩, hmem, hd⟩ := List.mem_flatMap.mp hd
  obtain ⟨-, a, ha, c, hc, rfl⟩ := mem_effectsOn.mp hd
  exact ⟨a, ⟨as, hmem, ha⟩, (Assignment.factsHold_residual hp hc).mp hσ⟩

/-- The operator leads to a valuation if the table sets what differs and nothing
that does not agree. -/
theorem apply_eq (hp : FactsHold σ p) (hagree : ∀ f, x.simplified.Sets σ f → f.Holds τ)
    (hset : ∀ v, τ v ≠ σ v → x.simplified.Sets σ ⟨v, τ v⟩) (h : x.operator? p = some o) :
    o.apply σ = τ := by
  obtain ⟨-, rfl⟩ := operator_eq_some h
  refine Operator.foldl_perform (fun d' hd' hσ => ?_) fun v => ?_
  · obtain ⟨d, hd, rfl⟩ := List.mem_map.mp (mem_orderedSet.mp hd')
    exact hagree _ (sets_of_mem_effects hp hd (Operator.factsHold_orderedSet.mp hσ))
  · by_cases hv : τ v = σ v
    · exact .inl hv.symm
    · right
      have hf : (⟨v, τ v⟩ : Fact) ∉ p := fun hmem => hv (hp _ hmem).symm
      obtain ⟨d, hd, hσ, hdv, -⟩ := exists_effect_of_sets hp hf (hset v hv)
      exact ⟨_, mem_orderedSet.mpr (List.mem_map_of_mem hd),
        Operator.factsHold_orderedSet.mpr hσ, hdv⟩

theorem eq_of_operator_eq_none (hp : FactsHold σ p)
    (hset : ∀ v, τ v ≠ σ v → x.simplified.Sets σ ⟨v, τ v⟩) (h : x.operator? p = none) :
    τ = σ := by
  funext v
  by_contra hv
  have hf : (⟨v, τ v⟩ : Fact) ∉ p := fun hmem => hv (hp _ hmem).symm
  obtain ⟨d, hd, -⟩ := exists_effect_of_sets hp hf (hset v hv)
  rw [flatMap_effectsOn_eq_nil h] at hd
  cases hd

end ActionEncoding
end FiniteDomain
end FinitePlanning
