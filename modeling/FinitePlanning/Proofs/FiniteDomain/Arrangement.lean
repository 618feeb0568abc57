import Mathlib.Data.List.Permutation
import FinitePlanning.Proofs.Semantics.FiniteDomain
import FinitePlanning.Proofs.FiniteDomain.CausalOrder

/-!
Putting the variables into another order and leaving out those that are irrelevant to the goal. No
condition of what is kept gets lost, and the projection on the variables that are kept is a
bisimulation.
-/

namespace FinitePlanning
namespace FiniteDomain

namespace Renumbering

variable {size v i k : Nat} {order : List Nat} {ns : Array (Option Nat)}

theorem getD_foldl_numbers_of_not_mem (order : List Nat) (k : Nat) (ns : Array (Option Nat))
    (hv : v ∉ order) : ((order.zipIdx k).foldl (fun ns (v, i) => ns.setIfInBounds v (some i))
      ns).getD v none = ns.getD v none := by
  induction order generalizing k ns with
  | nil => rfl
  | cons u order ih =>
      rw [List.mem_cons, not_or] at hv
      rw [List.zipIdx_cons, List.foldl_cons, ih _ _ hv.2]
      simp [Array.getD_eq_getD_getElem?, Ne.symm hv.1]

theorem getD_foldl_numbers (hn : order.Nodup) (hi : order[i]? = some v) (hv : v < ns.size) :
    ((order.zipIdx k).foldl (fun ns (v, i) => ns.setIfInBounds v (some i)) ns).getD v none =
      some (k + i) := by
  induction order generalizing i k ns with
  | nil => cases hi
  | cons u order ih =>
      rw [List.nodup_cons] at hn
      rw [List.zipIdx_cons, List.foldl_cons]
      cases i with
      | zero =>
          obtain rfl := Option.some.inj hi
          rw [getD_foldl_numbers_of_not_mem _ _ _ hn.1]
          simp [hv]
      | succ i =>
          rw [ih hn.2 hi (by simpa using hv), Nat.add_right_comm, Nat.add_assoc]

/-- A variable is numbered by its position. -/
theorem number?_eq_some_iff (hn : order.Nodup) (hlt : ∀ v ∈ order, v < size) :
    (ofList size order).number? v = some i ↔ order[i]? = some v := by
  refine ⟨getElem?_of_number?, fun hi => ?_⟩
  have hv : v < (Array.replicate size (none : Option Nat)).size := by
    simpa using hlt v (List.mem_of_getElem? hi)
  have hnumber := getD_foldl_numbers hn hi hv (k := 0)
  rwa [Nat.zero_add] at hnumber

theorem number?_eq_none_iff (hn : order.Nodup) (hlt : ∀ v ∈ order, v < size) :
    (ofList size order).number? v = none ↔ v ∉ order := by
  constructor
  · intro hnone hv
    obtain ⟨i, hi⟩ := List.getElem?_of_mem hv
    cases hnone.symm.trans ((number?_eq_some_iff hn hlt).mpr hi)
  · intro hv
    cases hnumber : (ofList size order).number? v with
    | none => rfl
    | some i => exact absurd (List.mem_of_getElem? (getElem?_of_number? hnumber)) hv

end Renumbering

/-- An operator leaves the variables alone that none of its effects is about. -/
theorem Operator.apply_of_forall_ne {o : Operator} {σ : Valuation} {v : Nat}
    (h : ∀ e ∈ o.effects, e.var ≠ v) : o.apply σ v = σ v := by
  suffices hall : ∀ (es : List Effect) (ρ : Valuation), (∀ e ∈ es, e.var ≠ v) →
      es.foldl (Operator.perform σ) ρ v = ρ v from hall o.effects σ h
  intro es
  induction es with
  | nil => exact fun _ _ => rfl
  | cons e es ih =>
      intro ρ hes
      rw [List.forall_mem_cons] at hes
      rw [List.foldl_cons, ih _ hes.2, Operator.perform]
      split
      next => exact Function.update_of_ne hes.1.symm _ _
      next => rfl

namespace Task

variable {t : Task} {order : List Nat} {σ τ υ : Valuation} {f g : Fact} {i v : Nat}

/-- The values of the variables of a list, in its order. -/
def projection (order : List Nat) (σ : Valuation) : Valuation := fun i =>
  (order[i]?).elim 0 σ

theorem projection_of_getElem? (h : order[i]? = some v) : projection order σ i = σ v := by
  rw [projection, h]
  rfl

theorem projection_of_none (h : order[i]? = none) : projection order σ i = 0 := by
  rw [projection, h]
  rfl

/-- Valuations with the same values of the variables of a list have the same projection. -/
theorem projection_congr (h : ∀ v ∈ order, σ v = τ v) : projection order σ = projection order τ := by
  funext i
  cases hi : order[i]? with
  | none => rw [projection_of_none hi, projection_of_none hi]
  | some v =>
      rw [projection_of_getElem? hi, projection_of_getElem? hi, h v (List.mem_of_getElem? hi)]

/-! ### Facts -/

section Facts

variable (h : t.IsSelfContained order)
include h

theorem IsSelfContained.exists_fact? (hf : f.var ∈ order) :
    ∃ g, (Renumbering.ofList t.vars.size order).fact? f = some g := by
  obtain ⟨i, hi⟩ := List.getElem?_of_mem hf
  exact ⟨⟨i, f.value⟩, Option.map_eq_some_iff.mpr
    ⟨i, (Renumbering.number?_eq_some_iff h.nodup h.lt).mpr hi, rfl⟩⟩

omit h in
theorem holds_fact? (hg : (Renumbering.ofList t.vars.size order).fact? f = some g) :
    g.Holds (projection order σ) ↔ f.Holds σ := by
  obtain ⟨hvar, hvalue⟩ := of_fact?_eq_some hg
  rw [Fact.Holds, Fact.Holds, projection_of_getElem? hvar, hvalue]

theorem IsSelfContained.factsHold_facts {fs : List Fact} (hfs : ∀ f ∈ fs, f.var ∈ order) :
    FactsHold (projection order σ) ((Renumbering.ofList t.vars.size order).facts fs) ↔
      FactsHold σ fs := by
  constructor
  · intro hall f hf
    obtain ⟨g, hg⟩ := h.exists_fact? (hfs f hf)
    exact (holds_fact? hg).mp (hall g (List.mem_filterMap.mpr ⟨f, hf, hg⟩))
  · intro hall g hg
    obtain ⟨f, hf, hg⟩ := List.mem_filterMap.mp hg
    exact (holds_fact? hg).mpr (hall f hf)

theorem IsSelfContained.projection_set
    (hg : (Renumbering.ofList t.vars.size order).fact? f = some g) :
    projection order (f.set σ) = g.set (projection order σ) := by
  obtain ⟨hvar, hvalue⟩ := of_fact?_eq_some hg
  funext i
  by_cases hi : i = g.var
  · subst hi
    rw [projection_of_getElem? hvar, Fact.set, Fact.set, Function.update_self,
      Function.update_self, hvalue]
  · rw [Fact.set, Fact.set, Function.update_of_ne hi]
    cases hv : order[i]? with
    | none => rw [projection_of_none hv, projection_of_none hv]
    | some v =>
        have hne : v ≠ f.var := by
          rintro rfl
          have hlt := (List.getElem?_eq_some_iff.mp hv).1
          exact hi ((List.getElem?_inj hlt h.nodup).mp (hv.trans hvar.symm))
        rw [projection_of_getElem? hv, projection_of_getElem? hv, Function.update_of_ne hne]

omit h in
theorem projection_set_of_not_mem (hf : f.var ∉ order) :
    projection order (f.set σ) = projection order σ :=
  projection_congr fun _ hv => Function.update_of_ne (ne_of_mem_of_not_mem hv hf) _ _

end Facts

/-! ### Operators and rules -/

section Operators

variable (h : t.IsSelfContained order) {o o' : Operator}
include h

omit h in
theorem operator?_eq_some
    (ho' : (Renumbering.ofList t.vars.size order).operator? o = some o') :
    o.effects.filterMap (Renumbering.ofList t.vars.size order).effect? ≠ [] ∧
      o' = .ofParts o.name ((Renumbering.ofList t.vars.size order).facts o.prevail)
        (o.effects.filterMap (Renumbering.ofList t.vars.size order).effect?) o.cost := by
  rw [Renumbering.operator?] at ho'
  split at ho'
  next => cases ho'
  next hempty => exact ⟨fun hnil => hempty (by rw [hnil]; rfl), (Option.some.inj ho').symm⟩

/-- An effect is kept if its variable is, with the same values and all of its condition. -/
theorem IsSelfContained.effect?_eq_some_iff {e e' : Effect} :
    (Renumbering.ofList t.vars.size order).effect? e = some e' ↔
      ∃ i, order[i]? = some e.var ∧ e' = { e with
        var := i, condition := (Renumbering.ofList t.vars.size order).facts e.condition } := by
  rw [Renumbering.effect?, Option.map_eq_some_iff]
  refine exists_congr fun i => ?_
  rw [Renumbering.number?_eq_some_iff h.nodup h.lt]
  exact and_congr_right fun _ => eq_comm

theorem IsSelfContained.operator?_eq_none_iff :
    (Renumbering.ofList t.vars.size order).operator? o = none ↔ ∀ e ∈ o.effects, e.var ∉ order := by
  have hempty : (o.effects.filterMap (Renumbering.ofList t.vars.size order).effect?).isEmpty = true ↔
      ∀ e ∈ o.effects, e.var ∉ order := by
    rw [List.isEmpty_iff, List.filterMap_eq_nil_iff]
    refine forall₂_congr fun e _ => ?_
    rw [Renumbering.effect?, Option.map_eq_none_iff, Renumbering.number?_eq_none_iff h.nodup h.lt]
  rw [← hempty, Renumbering.operator?]
  split
  next hnone => exact iff_of_true rfl hnone
  next hsome => exact iff_of_false (Option.some_ne_none _) hsome

theorem IsSelfContained.precondition_mem (ho : o ∈ t.operators)
    (ho' : (Renumbering.ofList t.vars.size order).operator? o = some o') :
    ∀ f ∈ o.preconditions, f.var ∈ order := by
  obtain ⟨hne, -⟩ := operator?_eq_some ho'
  obtain ⟨e', he'⟩ := List.exists_mem_of_ne_nil _ hne
  obtain ⟨e, he, hmatch⟩ := List.mem_filterMap.mp he'
  obtain ⟨i, hi, -⟩ := h.effect?_eq_some_iff.mp hmatch
  exact fun f hf => h.operators o ho e he (List.mem_of_getElem? hi) f (.inl hf)

/-- The preconditions of an operator that is kept are those that it had. -/
theorem IsSelfContained.mem_preconditions (ho : o ∈ t.operators)
    (ho' : (Renumbering.ofList t.vars.size order).operator? o = some o') :
    g ∈ o'.preconditions ↔ ∃ f ∈ o.preconditions,
      (Renumbering.ofList t.vars.size order).fact? f = some g := by
  have hkept := h.precondition_mem ho ho'
  obtain ⟨-, rfl⟩ := operator?_eq_some ho'
  rw [Operator.mem_preconditions]
  constructor
  · rintro (hg | ⟨e', he', hg⟩)
    · obtain ⟨f, hf, hmatch⟩ := List.mem_filterMap.mp (mem_orderedSet.mp hg)
      exact ⟨f, Operator.mem_preconditions.mpr (.inl hf), hmatch⟩
    · obtain ⟨d, hd, rfl⟩ := Operator.mem_effects_ofParts.mp he'
      obtain ⟨e, he, hmatch⟩ := List.mem_filterMap.mp hd
      obtain ⟨i, hi, rfl⟩ := h.effect?_eq_some_iff.mp hmatch
      obtain ⟨b, hb, rfl⟩ := Option.map_eq_some_iff.mp hg
      refine ⟨⟨e.var, b⟩, Operator.mem_preconditions.mpr
        (.inr ⟨e, he, Option.map_eq_some_iff.mpr ⟨b, hb, rfl⟩⟩), ?_⟩
      exact Option.map_eq_some_iff.mpr
        ⟨i, (Renumbering.number?_eq_some_iff h.nodup h.lt).mpr hi, rfl⟩
  · rintro ⟨f, hf, hmatch⟩
    rcases Operator.mem_preconditions.mp hf with hprevail | ⟨e, he, hbefore⟩
    · exact .inl (mem_orderedSet.mpr (List.mem_filterMap.mpr ⟨f, hprevail, hmatch⟩))
    · -- an effect with an old value is kept, since its old value is a precondition
      obtain ⟨b, hb, rfl⟩ := Option.map_eq_some_iff.mp hbefore
      obtain ⟨i, hi⟩ := List.getElem?_of_mem (hkept _ hf)
      have hnumber := (Renumbering.number?_eq_some_iff h.nodup h.lt).mpr hi
      refine .inr ⟨_, Operator.mem_effects_ofParts.mpr ⟨_, List.mem_filterMap.mpr
        ⟨e, he, h.effect?_eq_some_iff.mpr ⟨i, hi, rfl⟩⟩, rfl⟩, ?_⟩
      rw [← hmatch]
      simp [Effect.beforeFact?, hb, Renumbering.fact?, hnumber]

theorem IsSelfContained.applicable_operator? (ho : o ∈ t.operators)
    (ho' : (Renumbering.ofList t.vars.size order).operator? o = some o') :
    o'.Applicable (projection order σ) ↔ o.Applicable σ := by
  constructor
  · intro happ f hf
    obtain ⟨g, hg⟩ := h.exists_fact? (h.precondition_mem ho ho' f hf)
    exact (holds_fact? hg).mp (happ g ((h.mem_preconditions ho ho').mpr ⟨f, hf, hg⟩))
  · intro happ g hg
    obtain ⟨f, hf, hg⟩ := (h.mem_preconditions ho ho').mp hg
    exact (holds_fact? hg).mpr (happ f hf)

theorem IsSelfContained.apply_operator? (ho : o ∈ t.operators) (hc : o.IsConsistent σ)
    (ho' : (Renumbering.ofList t.vars.size order).operator? o = some o') :
    o'.apply (projection order σ) = projection order (o.apply σ) := by
  obtain ⟨-, rfl⟩ := operator?_eq_some ho'
  have hcondition : ∀ e ∈ o.effects, e.var ∈ order →
      (FactsHold (projection order σ)
        ((Renumbering.ofList t.vars.size order).facts e.condition) ↔ FactsHold σ e.condition) :=
    fun e he hvar => h.factsHold_facts fun f hf => h.operators o ho e he hvar f (.inr hf)
  refine Operator.apply_eq (fun g hg => ?_) fun i hne => ?_
  · obtain ⟨e', he', hholds, rfl⟩ := Operator.sets_ofParts.mp hg
    obtain ⟨e, he, hmatch⟩ := List.mem_filterMap.mp he'
    obtain ⟨i, hi, rfl⟩ := h.effect?_eq_some_iff.mp hmatch
    have hset := hc.holds_apply
      ⟨e, he, (hcondition e he (List.mem_of_getElem? hi)).mp hholds, rfl⟩
    exact (projection_of_getElem? hi).trans hset
  · cases hi : order[i]? with
    | none => exact absurd ((projection_of_none hi).trans (projection_of_none hi).symm) hne
    | some v =>
        rw [projection_of_getElem? hi, projection_of_getElem? hi] at hne
        obtain ⟨e, he, hholds, hafter⟩ := hc.sets_of_ne hne
        obtain ⟨rfl, hvalue⟩ := Fact.mk.inj hafter
        refine Operator.sets_ofParts.mpr ⟨_, List.mem_filterMap.mpr
          ⟨e, he, h.effect?_eq_some_iff.mpr ⟨i, hi, rfl⟩⟩, ?_, ?_⟩
        · exact (hcondition e he (List.mem_of_getElem? hi)).mpr hholds
        · rw [projection_of_getElem? hi, ← hvalue]
          rfl

/-- An operator that is left out changes no variable that is kept. -/
theorem IsSelfContained.projection_apply
    (ho' : (Renumbering.ofList t.vars.size order).operator? o = none) :
    projection order (o.apply σ) = projection order σ := by
  have hout := h.operator?_eq_none_iff.mp ho'
  exact projection_congr fun v hv => Operator.apply_of_forall_ne fun e he heq =>
    hout e he (heq ▸ hv)

theorem IsSelfContained.rule?_eq_none {r : Rule}
    (hr : (Renumbering.ofList t.vars.size order).rule? r = none) : r.effect.var ∉ order := by
  rw [Renumbering.rule?, Option.map_eq_none_iff, Renumbering.fact?, Option.map_eq_none_iff] at hr
  exact (Renumbering.number?_eq_none_iff h.nodup h.lt).mp hr

end Operators

/-! ### Rules -/

section Evaluation

variable (h : t.IsSelfContained order) {rules : List Rule}
include h

theorem IsSelfContained.settles_rule? (hrules : ∀ r ∈ rules, r ∈ t.rules)
    (hsettles : Settles rules σ τ) :
    Settles (rules.filterMap (Renumbering.ofList t.vars.size order).rule?)
      (projection order σ) (projection order τ) := by
  have hspec : ∀ r ∈ rules, ∀ r', (Renumbering.ofList t.vars.size order).rule? r = some r' →
      (Renumbering.ofList t.vars.size order).fact? r.effect = some r'.effect ∧
        ∀ σ, (FactsHold (projection order σ) r'.condition ↔ FactsHold σ r.condition) := by
    intro r hr r' hmatch
    obtain ⟨effect, heffect, rfl⟩ := Option.map_eq_some_iff.mp hmatch
    obtain ⟨hvar, -⟩ := of_fact?_eq_some heffect
    exact ⟨heffect, fun σ => Operator.factsHold_orderedSet.trans
      (h.factsHold_facts (h.rules r (hrules r hr) (List.mem_of_getElem? hvar)))⟩
  induction hsettles with
  | done hdone =>
      refine .done fun r' hr' hc => ?_
      obtain ⟨r, hr, hmatch⟩ := List.mem_filterMap.mp hr'
      obtain ⟨heffect, hcondition⟩ := hspec r hr r' hmatch
      exact (holds_fact? heffect).mpr (hdone r hr ((hcondition _).mp hc))
  | @fire σ τ r hr hc he _ ih =>
      cases hmatch : (Renumbering.ofList t.vars.size order).rule? r with
      | none => rwa [projection_set_of_not_mem (h.rule?_eq_none hmatch)] at ih
      | some r' =>
          obtain ⟨heffect, hcondition⟩ := hspec r hr r' hmatch
          rw [h.projection_set heffect] at ih
          exact .fire (List.mem_filterMap.mpr ⟨r, hr, hmatch⟩) ((hcondition _).mpr hc)
            (mt (holds_fact? heffect).mp he) ih

theorem IsSelfContained.settlesAll_rule? {layers : List (List Rule)}
    (hlayers : ∀ rules ∈ layers, ∀ r ∈ rules, r ∈ t.rules) (hsettles : SettlesAll layers σ τ) :
    SettlesAll (layers.map (·.filterMap (Renumbering.ofList t.vars.size order).rule?))
      (projection order σ) (projection order τ) := by
  induction hsettles with
  | nil => exact .nil
  | cons hfirst _ ih =>
      rw [List.forall_mem_cons] at hlayers
      exact .cons (h.settles_rule? hlayers.1 hfirst) (ih hlayers.2)

omit h in
theorem isDerived_withOrder (hi : order[i]? = some v) :
    (t.withOrder order).IsDerived i ↔ t.IsDerived v := by
  rw [IsDerived, IsDerived, layerOf?_withOrder hi]

omit h in
theorem not_isDerived_withOrder (hi : order[i]? = none) : ¬ (t.withOrder order).IsDerived i := by
  simp [IsDerived, layerOf?, withOrder, hi]

omit h in
theorem initialValue_withOrder :
    (t.withOrder order).initialValue = projection order t.initialValue := by
  funext i
  rw [initialValue, withOrder, projection, Array.getD_eq_getD_getElem?, List.getElem?_toArray,
    List.getElem?_map]
  cases order[i]? <;> rfl

omit h in
theorem reset_withOrder :
    (t.withOrder order).reset (projection order σ) = projection order (t.reset σ) := by
  funext i
  cases hi : order[i]? with
  | none =>
      rw [reset_of_not_derived (not_isDerived_withOrder hi), projection_of_none hi,
        projection_of_none hi]
  | some v =>
      rw [projection_of_getElem? hi]
      by_cases hv : t.IsDerived v
      · rw [reset_of_derived hv, reset_of_derived ((isDerived_withOrder hi).mpr hv),
          initialValue_withOrder, projection_of_getElem? hi]
      · rw [reset_of_not_derived hv,
          reset_of_not_derived fun hd => hv ((isDerived_withOrder hi).mp hd),
          projection_of_getElem? hi]

omit h in
theorem rulesOf_withOrder (layer : Nat) : (t.withOrder order).rulesOf layer =
    (t.rulesOf layer).filterMap (Renumbering.ofList t.vars.size order).rule? := by
  have hrules : (t.withOrder order).rules =
      t.rules.filterMap (Renumbering.ofList t.vars.size order).rule? := rfl
  rw [rulesOf, rulesOf, hrules, List.filter_filterMap, List.filterMap_filter]
  refine List.filterMap_congr fun r _ => ?_
  cases hmatch : (Renumbering.ofList t.vars.size order).rule? r with
  | none => simp
  | some r' =>
      obtain ⟨effect, heffect, rfl⟩ := Option.map_eq_some_iff.mp hmatch
      have hlayer : (t.withOrder order).layerOf? effect.var = t.layerOf? r.effect.var :=
        layerOf?_withOrder (of_fact?_eq_some heffect).1
      simp [Option.filter, Rule.ofParts, hlayer]

/-- What the rules of the old task lead to is projected on what those of the new one lead to. -/
theorem IsSelfContained.evaluates_withOrder (hσ : t.Evaluates σ τ) :
    (t.withOrder order).Evaluates (projection order σ) (projection order τ) := by
  have hle := Nat.le_max_left t.layerBound (t.withOrder order).layerBound
  have hle' := Nat.le_max_right t.layerBound (t.withOrder order).layerBound
  have hrules : ∀ layer, (t.withOrder order).rulesOf layer =
      (t.rulesOf layer).filterMap (Renumbering.ofList t.vars.size order).rule? := rulesOf_withOrder
  rw [evaluates_iff hle] at hσ
  rw [evaluates_iff hle', reset_withOrder]
  have hsettles := h.settlesAll_rule? (List.forall_mem_map.mpr fun layer _ r hr =>
    (mem_rulesOf.mp hr).1) hσ
  rw [List.map_map] at hsettles
  rwa [List.map_congr_left fun layer _ => hrules layer]

end Evaluation

/-! ### Bisimulation -/

/-- What is kept keeps all of its conditions: operators their preconditions and the conditions of
the effects on variables that are kept, rules of such variables their conditions, and the goal its
facts. -/
structure KeepsConditions (t t' : Task) (r : Renumbering) : Prop where
  preconditions : ∀ o ∈ t.operators, ∀ o', r.operator? o = some o' →
    (∀ f ∈ o.preconditions, ∃ g ∈ o'.preconditions, r.fact? f = some g) ∧
      ∀ g ∈ o'.preconditions, ∃ f ∈ o.preconditions, r.fact? f = some g
  effects : ∀ o ∈ t.operators, ∀ o', r.operator? o = some o' → ∀ e ∈ o.effects, ∀ var,
    r.number? e.var = some var → ∃ e' ∈ o'.effects, e'.var = var ∧ e'.before = e.before ∧
      e'.after = e.after ∧ (∀ f ∈ e.condition, ∃ g ∈ e'.condition, r.fact? f = some g) ∧
        ∀ g ∈ e'.condition, ∃ f ∈ e.condition, r.fact? f = some g
  rules : ∀ rule ∈ t.rules, ∀ rule', r.rule? rule = some rule' →
    (∀ f ∈ rule.condition, ∃ g ∈ rule'.condition, r.fact? f = some g) ∧
      ∀ g ∈ rule'.condition, ∃ f ∈ rule.condition, r.fact? f = some g
  goal : (∀ f ∈ t.goal, ∃ g ∈ t'.goal, r.fact? f = some g) ∧
    ∀ g ∈ t'.goal, ∃ f ∈ t.goal, r.fact? f = some g

section Bisimulation

variable (h : t.IsSelfContained order)
include h

/-- The facts of a conjunction on variables that are kept. -/
theorem IsSelfContained.keeps_facts {fs : List Fact} (hfs : ∀ f ∈ fs, f.var ∈ order) :
    (∀ f ∈ fs, ∃ g ∈ (Renumbering.ofList t.vars.size order).facts fs,
      (Renumbering.ofList t.vars.size order).fact? f = some g) ∧
    ∀ g ∈ (Renumbering.ofList t.vars.size order).facts fs, ∃ f ∈ fs,
      (Renumbering.ofList t.vars.size order).fact? f = some g := by
  refine ⟨fun f hf => ?_, fun g hg => List.mem_filterMap.mp hg⟩
  obtain ⟨g, hg⟩ := h.exists_fact? (hfs f hf)
  exact ⟨g, List.mem_filterMap.mpr ⟨f, hf, hg⟩, hg⟩

theorem IsSelfContained.keepsConditions :
    t.KeepsConditions (t.withOrder order) (Renumbering.ofList t.vars.size order) where
  preconditions o ho o' ho' := by
    refine ⟨fun f hf => ?_, fun g hg => (h.mem_preconditions ho ho').mp hg⟩
    obtain ⟨g, hg⟩ := h.exists_fact? (h.precondition_mem ho ho' f hf)
    exact ⟨g, (h.mem_preconditions ho ho').mpr ⟨f, hf, hg⟩, hg⟩
  effects o ho o' ho' e he i hi := by
    have hi := Renumbering.getElem?_of_number? hi
    obtain ⟨-, rfl⟩ := operator?_eq_some ho'
    obtain ⟨hkept, hfrom⟩ := h.keeps_facts fun f hf =>
      h.operators o ho e he (List.mem_of_getElem? hi) f (.inr hf)
    refine ⟨_, Operator.mem_effects_ofParts.mpr ⟨_, List.mem_filterMap.mpr
      ⟨e, he, h.effect?_eq_some_iff.mpr ⟨i, hi, rfl⟩⟩, rfl⟩, rfl, rfl, rfl, fun f hf => ?_,
      fun g hg => hfrom g (mem_orderedSet.mp hg)⟩
    obtain ⟨g, hg, hmatch⟩ := hkept f hf
    exact ⟨g, mem_orderedSet.mpr hg, hmatch⟩
  rules rule hrule rule' hmatch := by
    obtain ⟨effect, heffect, rfl⟩ := Option.map_eq_some_iff.mp hmatch
    obtain ⟨hkept, hfrom⟩ := h.keeps_facts
      (h.rules rule hrule (List.mem_of_getElem? (of_fact?_eq_some heffect).1))
    refine ⟨fun f hf => ?_, fun g hg => hfrom g (mem_orderedSet.mp hg)⟩
    obtain ⟨g, hg, hmatch⟩ := hkept f hf
    exact ⟨g, mem_orderedSet.mpr hg, hmatch⟩
  goal := by
    obtain ⟨hkept, hfrom⟩ := h.keeps_facts h.goal
    refine ⟨fun f hf => ?_, fun g hg => hfrom g (List.mem_mergeSort.mp hg)⟩
    obtain ⟨g, hg, hmatch⟩ := hkept f hf
    exact ⟨g, List.mem_mergeSort.mpr hg, hmatch⟩

variable (hw : t.IsWellFormed) (hr : t.ResetsToOne)
include hw hr

/-- The new rules lead exactly to the projections of what the old ones lead to. -/
theorem IsSelfContained.evaluates_withOrder_iff {τ' : Valuation} :
    (t.withOrder order).Evaluates (projection order σ) τ' ↔
      ∃ τ, t.Evaluates σ τ ∧ projection order τ = τ' := by
  obtain ⟨hw', hr'⟩ := isWellFormed_withOrder hw hr h.lt
  constructor
  · intro hτ'
    obtain ⟨τ, hτ⟩ := exists_evaluates hr σ
    exact ⟨τ, hτ, (h.evaluates_withOrder hτ).unique hw' hr' hτ'⟩
  · rintro ⟨τ, hτ, rfl⟩
    exact h.evaluates_withOrder hτ

theorem IsSelfContained.isImage_withOrder (hc : t.IsConsistent) :
    t.IsImage (t.withOrder order) (projection order)
      (Renumbering.ofList t.vars.size order).operator? where
  operators := rfl
  name_cost o o' ho' := by
    obtain ⟨-, rfl⟩ := operator?_eq_some ho'
    exact ⟨rfl, rfl⟩
  initial σ' := by
    rw [initialValue_withOrder]
    exact h.evaluates_withOrder_iff hw hr
  applicable σ _ o ho o' ho' := h.applicable_operator? ho ho'
  step σ hσ o ho happ o' ho' τ' := by
    rw [h.apply_operator? ho (hc σ hσ o ho happ) ho']
    exact h.evaluates_withOrder_iff hw hr
  dropped σ hσ o ho ho' happ τ hτ := by
    obtain ⟨hw', hr'⟩ := isWellFormed_withOrder hw hr h.lt
    obtain ⟨υ, hυ⟩ := hσ.exists_evaluates
    have hτ := h.evaluates_withOrder hτ
    rw [h.projection_apply ho'] at hτ
    exact (h.evaluates_withOrder hυ).eq_self hw' hr' hτ
  goal σ _ := by
    refine Iff.trans ?_ (h.factsHold_facts h.goal)
    simp only [FactsHold, withOrder, List.mem_mergeSort]

end Bisimulation

/-! ### Reordering -/

/-- Numbers that are not those of variables keep the value zero. -/
theorem Reachable.eq_zero (hw : t.IsWellFormed) (hσ : t.Reachable σ) (hv : t.vars.size ≤ v) :
    σ v = 0 := by
  have hbasic : ¬ t.IsDerived v := by simp [IsDerived, layerOf?, hv]
  induction hσ with
  | init h =>
      rw [h.eq_of_not_derived hbasic, initialValue, Array.getD_eq_getD_getElem?,
        Array.getElem?_eq_none (hw.init_size ▸ hv)]
      rfl
  | @step σ τ o _ ho _ h ih =>
      rw [h.eq_of_not_derived hbasic, Operator.apply_of_forall_ne fun e he heq => ?_, ih]
      have hlt : e.var < t.vars.size := hasFact_lt ((hw.operators o ho).after e he)
      exact Nat.not_lt.mpr hv (heq ▸ hlt)

/-- Nothing is left out: the order has all variables, different valuations that can be reached
have different projections, and all rules and all operators with effects are kept. -/
structure IsReordering (t : Task) (order : List Nat) : Prop where
  perm : order.Perm (List.range t.vars.size)
  injective : ∀ σ τ, t.Reachable σ → t.Reachable τ → projection order σ = projection order τ → σ = τ
  operators : ∀ o ∈ t.operators, o.effects ≠ [] →
    ((Renumbering.ofList t.vars.size order).operator? o).isSome
  rules : ∀ r ∈ t.rules, ((Renumbering.ofList t.vars.size order).rule? r).isSome

theorem isReordering_of_perm (hw : t.IsWellFormed) (h : t.IsSelfContained order)
    (hperm : order.Perm (List.range t.vars.size)) : t.IsReordering order := by
  have hmem : ∀ {v : Nat}, v < t.vars.size → v ∈ order := fun hv =>
    hperm.mem_iff.mpr (List.mem_range.mpr hv)
  refine ⟨hperm, fun σ τ hσ hτ heq => ?_, fun o ho hne => ?_, fun r hr => ?_⟩
  · funext v
    by_cases hv : v < t.vars.size
    · obtain ⟨i, hi⟩ := List.getElem?_of_mem (hmem hv)
      rw [← projection_of_getElem? (σ := σ) hi, heq, projection_of_getElem? hi]
    · rw [hσ.eq_zero hw (Nat.not_lt.mp hv), hτ.eq_zero hw (Nat.not_lt.mp hv)]
  · obtain ⟨e, he⟩ := List.exists_mem_of_ne_nil _ hne
    refine Option.isSome_iff_ne_none.mpr fun hnone => ?_
    exact h.operator?_eq_none_iff.mp hnone e he (hmem (hasFact_lt ((hw.operators o ho).after e he)))
  · refine Option.isSome_iff_ne_none.mpr fun hnone => ?_
    exact h.rule?_eq_none hnone (hmem (hasFact_lt (hw.rules r hr).valid))

/-- Ordering and leaving out variables keeps the solvability. -/
theorem solvable_arrange_iff (hw : t.IsWellFormed) (hr : t.ResetsToOne) (hc : t.IsConsistent)
    (reorder onlyRelevant : Bool) : (t.arrange reorder onlyRelevant).Solvable ↔ t.Solvable := by
  rw [arrange]
  cases reorder || onlyRelevant with
  | false => exact Iff.rfl
  | true => exact ((isSelfContained_variableOrder hw reorder onlyRelevant).isImage_withOrder hw hr
      hc).solvable_iff

/-- Ordering and leaving out variables gives a task of which no kept part lost a condition, and
whose runs are the projections of the runs of the old task. Operators that are left out change no
variable that is kept, and if no variable is left out the projection is one to one. -/
theorem arrange_isImage (hcheck : t.check = .ok ()) (hr : t.ResetsToOne) (hc : t.IsConsistent)
    (reorder onlyRelevant : Bool) :
    ((reorder || onlyRelevant) = false → t.arrange reorder onlyRelevant = t) ∧
    ((reorder || onlyRelevant) = true →
      t.KeepsConditions (t.arrange reorder onlyRelevant)
        (.ofList t.vars.size (t.variableOrder reorder onlyRelevant)) ∧
      t.IsImage (t.arrange reorder onlyRelevant) (projection (t.variableOrder reorder onlyRelevant))
        (Renumbering.ofList t.vars.size (t.variableOrder reorder onlyRelevant)).operator? ∧
      (∀ o ∈ t.operators, (Renumbering.ofList t.vars.size
          (t.variableOrder reorder onlyRelevant)).operator? o = none →
        ∀ e ∈ o.effects, e.var ∉ t.variableOrder reorder onlyRelevant) ∧
      (onlyRelevant = false → t.IsReordering (t.variableOrder reorder onlyRelevant))) ∧
    ((t.arrange reorder onlyRelevant).Solvable ↔ t.Solvable) := by
  have hw := check_eq_ok_iff.mp hcheck
  have h := isSelfContained_variableOrder hw reorder onlyRelevant
  have hsolvable := solvable_arrange_iff hw hr hc reorder onlyRelevant
  rw [arrange] at hsolvable ⊢
  cases hchange : reorder || onlyRelevant with
  | false => exact ⟨fun _ => rfl, fun h => Bool.noConfusion h, Iff.rfl⟩
  | true =>
      rw [hchange] at hsolvable
      refine ⟨fun h => Bool.noConfusion h, fun _ => ⟨h.keepsConditions, h.isImage_withOrder hw hr hc,
        fun o _ hnone => h.operator?_eq_none_iff.mp hnone, ?_⟩, hsolvable⟩
      rintro rfl
      exact isReordering_of_perm hw h (perm_variableOrder t reorder)

/-- A meal is cooked on a stove that must be lit first. Cooking makes the kitchen dirty, which does
not matter to the goal. -/
def cooking : Task where
  vars := #[⟨2, none, ["raw", "cooked"]⟩, ⟨2, none, ["clean", "dirty"]⟩,
    ⟨2, some 0, ["ready", "not ready"]⟩, ⟨2, none, ["off", "on"]⟩]
  init := #[0, 0, 1, 0]
  goal := [⟨2, 0⟩]
  operators := [
    ⟨"light", [], [⟨3, some 0, 1, []⟩], 1⟩,
    ⟨"cook", [⟨3, 1⟩], [⟨0, some 0, 1, []⟩, ⟨1, none, 1, []⟩], 1⟩,
    ⟨"sweep", [], [⟨1, none, 0, []⟩], 1⟩]
  rules := [⟨[⟨0, 1⟩], ⟨2, 0⟩⟩]

theorem resetsToOne_cooking : cooking.ResetsToOne where
  initial v hv := by
    match v with
    | 0 | 1 | 3 => cases hv
    | 2 => rfl
    | v + 4 => cases hv
  rules := by decide

/-- The meal without the state of the kitchen. -/
def plainCooking : Task where
  vars := #[⟨2, none, ["off", "on"]⟩, ⟨2, none, ["raw", "cooked"]⟩,
    ⟨2, some 0, ["ready", "not ready"]⟩]
  init := #[0, 0, 1]
  goal := [⟨2, 0⟩]
  operators := [
    ⟨"light", [], [⟨0, some 0, 1, []⟩], 1⟩,
    ⟨"cook", [⟨0, 1⟩], [⟨1, some 0, 1, []⟩], 1⟩]
  rules := [⟨[⟨1, 1⟩], ⟨2, 0⟩⟩]

theorem cooking_arrange_isImage :
    cooking.check = .ok () ∧ cooking.ResetsToOne ∧ cooking.IsConsistent ∧
      cooking.variableOrder true true = [3, 0, 2] ∧
      cooking.IsImage plainCooking (projection [3, 0, 2])
        (Renumbering.ofList 4 [3, 0, 2]).operator? ∧
      (plainCooking.Solvable ↔ cooking.Solvable) := by
  have hcheck : cooking.check = .ok () := rfl
  have hc : cooking.IsConsistent := fun σ _ o ho _ =>
    Operator.isConsistent_of_nodup ((by decide :
      ∀ o ∈ cooking.operators, (o.effects.map (·.var)).Nodup) o ho)
  have horder : cooking.variableOrder true true = [3, 0, 2] := by cbv
  have harrange : cooking.arrange true true = plainCooking := by cbv
  obtain ⟨-, harranged, hsolvable⟩ := arrange_isImage hcheck resetsToOne_cooking hc true true
  have himage := (harranged rfl).2.1
  rw [horder, harrange] at himage
  exact ⟨hcheck, resetsToOne_cooking, hc, horder, himage, harrange ▸ hsolvable⟩

end Task
end FiniteDomain
end FinitePlanning
