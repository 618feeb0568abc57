import FinitePlanning.Proofs.Semantics.FiniteDomain
import FinitePlanning.Proofs.FiniteDomain.Evaluation
import FinitePlanning.Proofs.FiniteDomain.Operator
import FinitePlanning.Proofs.Pruning.Images

/-!
Operators and rules when the values that cannot be taken are removed. Reachable valuations have
only values that can be taken, and on them the images do what the originals do.
-/

namespace FinitePlanning
namespace FiniteDomain
namespace Task

variable {t : Task} {σ τ : Valuation} {o : Operator} {r : Rule}

/-- The preconditions of operators are on different variables than their effects, or on
the old values of the variables of the effects, which do not differ. -/
structure OperatorsAreTidy (t : Task) : Prop where
  apart : ∀ o ∈ t.operators, ∀ f ∈ o.prevail, ∀ e ∈ o.effects, f.var ≠ e.var
  before : ∀ o ∈ t.operators, ∀ e ∈ o.effects, ∀ d ∈ o.effects, e.var = d.var → e.before = d.before

/-- In no reachable valuation an applicable operator sets a variable to different values. -/
def IsConsistent (t : Task) : Prop :=
  ∀ σ, t.Reachable σ → ∀ o ∈ t.operators, o.Applicable σ → o.IsConsistent σ

theorem hasFact_lt {f : Fact} (h : t.hasFact f = true) : f.var < t.vars.size := by
  obtain ⟨v, hv, -⟩ := hasFact_iff.mp h
  exact (Array.getElem?_eq_some_iff.mp hv).1

theorem IsWellFormed.precondition_lt (hw : t.IsWellFormed) (ho : o ∈ t.operators) {f : Fact}
    (hf : f ∈ o.preconditions) : f.var < t.vars.size := by
  rcases Operator.mem_preconditions.mp hf with hf | ⟨e, he, hf⟩
  · exact hasFact_lt ((hw.operators o ho).prevail f hf)
  · exact hasFact_lt ((hw.operators o ho).before e he f hf)

/-! ### The values that are reached -/

/-- The transition of an effect that takes place starts at the old value. -/
theorem exists_transition {e : Effect} {preconditions : List Fact}
    (hp : FactsHold σ preconditions) (hc : FactsHold σ e.condition) :
    ∃ before, e.transition? preconditions = some ⟨e.var, before, e.after⟩ ∧
      ∀ x ∈ before, x = σ e.var := by
  have hall : ∀ f ∈ (preconditions.find? (·.var = e.var)).toList ++
      e.condition.filter (·.var = e.var), f.var = e.var ∧ f.value = σ e.var := by
    intro f hf
    rcases List.mem_append.mp hf with hf | hf
    · rw [Option.mem_toList] at hf
      have hvar : f.var = e.var := by simpa using List.find?_some hf
      exact ⟨hvar, hvar ▸ (hp f (List.mem_of_find?_eq_some hf)).symm⟩
    · obtain ⟨hf, hvar⟩ := List.mem_filter.mp hf
      have hvar : f.var = e.var := of_decide_eq_true hvar
      exact ⟨hvar, hvar ▸ (hc f hf).symm⟩
  rw [Effect.transition?]
  generalize (preconditions.find? (·.var = e.var)).toList ++ e.condition.filter (·.var = e.var) =
    required at hall
  cases required with
  | nil => exact ⟨none, rfl, nofun⟩
  | cons f rest =>
      rw [List.forall_mem_cons] at hall
      refine ⟨some f.value, if_pos (List.all_eq_true.mpr fun g hg => ?_), ?_⟩
      · have hg := hall.2 g hg
        have hf := hall.1
        rw [decide_eq_true_eq]
        cases f
        cases g
        simp_all
      · rintro x ⟨⟩
        exact hall.1.2

section Values

variable (hw : t.IsWellFormed)
include hw

theorem canTake_of_sets (hσ : t.Possible σ) (ho : o ∈ t.operators) (happ : o.Applicable σ)
    {f : Fact} (hf : o.Sets σ f) : t.CanTake f.var f.value := by
  obtain ⟨e, he, hc, rfl⟩ := hf
  obtain ⟨before, htransition, hbefore⟩ := exists_transition happ hc
  have hvalid := (hw.operators o ho).after e he
  have hmem : (⟨e.var, before, e.after⟩ : Transition) ∈ t.transitions :=
    List.mem_append_left _ (List.mem_flatMap.mpr ⟨o, ho, List.mem_filterMap.mpr
      ⟨e, he, htransition⟩⟩)
  exact .of_transition hw hmem (hσ e.var (hasFact_lt hvalid)) hbefore hvalid

theorem canTake_of_rule (hr : r ∈ t.rules) : t.CanTake r.effect.var r.effect.value := by
  have hvalid := (hw.rules r hr).valid
  have hlt : r.effect.var < t.init.size := hw.init_size ▸ hasFact_lt hvalid
  have hmem : (⟨r.effect.var, none, r.effect.value⟩ : Transition) ∈ t.transitions :=
    List.mem_append_right _ (List.mem_map.mpr ⟨r, hr, rfl⟩)
  exact .of_transition hw hmem (canTake_init hw (Array.getElem?_eq_getElem hlt)) nofun hvalid

theorem possible_apply (hσ : t.Possible σ) (ho : o ∈ t.operators) (happ : o.Applicable σ)
    (hc : o.IsConsistent σ) : t.Possible (o.apply σ) := by
  intro var hvar
  by_cases hv : o.apply σ var = σ var
  · exact hv ▸ hσ var hvar
  · exact canTake_of_sets hw hσ ho happ (hc.sets_of_ne hv)

theorem possible_initialValue : t.Possible t.initialValue := by
  intro var hvar
  have hlt : var < t.init.size := hw.init_size ▸ hvar
  refine canTake_init hw ?_
  simp [initialValue, hlt]

theorem possible_reset (hσ : t.Possible σ) : t.Possible (t.reset σ) := by
  intro var hvar
  rw [reset]
  split
  · exact possible_initialValue hw var hvar
  · exact hσ var hvar

theorem possible_settles {rules : List Rule} (hsub : ∀ r ∈ rules, r ∈ t.rules)
    (hσ : t.Possible σ) (h : Settles rules σ τ) : t.Possible τ := by
  induction h with
  | done _ => exact hσ
  | fire hr _ _ _ ih => exact ih (possible_set hσ (canTake_of_rule hw (hsub _ hr)))

theorem possible_settlesAll {layers : List (List Rule)}
    (hsub : ∀ rules ∈ layers, ∀ r ∈ rules, r ∈ t.rules) (hσ : t.Possible σ)
    (h : SettlesAll layers σ τ) : t.Possible τ := by
  induction h with
  | nil => exact hσ
  | cons h _ ih =>
      rw [List.forall_mem_cons] at hsub
      exact ih hsub.2 (possible_settles hw hsub.1 hσ h)

theorem Evaluates.possible (hσ : t.Possible σ) (h : t.Evaluates σ τ) : t.Possible τ := by
  refine possible_settlesAll hw (List.forall_mem_map.mpr fun layer _ r hr => ?_)
    (possible_reset hw hσ) h
  exact (mem_rulesOf.mp hr).1

/-- Reachable valuations have only values that can be taken. -/
theorem Reachable.possible (hc : t.IsConsistent) (h : t.Reachable σ) : t.Possible σ := by
  induction h with
  | init h => exact h.possible hw (possible_initialValue hw)
  | step hσ ho happ h ih => exact h.possible hw (possible_apply hw ih ho happ (hc _ hσ _ ho happ))

end Values

/-! ### The images of operators and rules -/

section Images

variable (hw : t.IsWellFormed) (hσ : t.Possible σ)
include hw hσ

/-- A rule without an image changes nothing. -/
theorem holds_of_rule?_eq_none (hr : r ∈ t.rules) (h : t.pruning.rule? r = none)
    (hc : FactsHold σ r.condition) : r.effect.Holds σ := by
  have hvalid := hasFact_lt (hw.rules r hr).valid
  obtain ⟨_, -, hfits⟩ := (hw.rules r hr).layer
  have hcond : ∀ f ∈ r.condition, f.var < t.vars.size := fun f hf => hasFact_lt (hfits f hf).valid
  rw [Pruning.rule?] at h
  cases hcondition : t.pruning.facts? r.condition with
  | none => exact absurd hc (facts?_eq_none hw hσ hcond hcondition)
  | some condition =>
      cases himage : t.pruning.image r.effect with
      | always => exact holds_of_image_always hw hσ hvalid himage
      | never =>
          rw [image_eq hw hvalid, if_pos (canTake_of_rule hw hr)] at himage
          split at himage <;> cases himage
      | fact g => simp [hcondition, himage, Image.fact?] at h

omit hw hσ in
/-- The image of a rule. -/
theorem of_rule?_eq_some {r' : Rule} (h : t.pruning.rule? r = some r') :
    t.pruning.image r.effect = .fact r'.effect ∧ ∃ condition,
      t.pruning.facts? r.condition = some condition ∧ r'.condition = orderedSet condition := by
  simp only [Pruning.rule?, Option.bind_eq_bind, Option.bind_eq_some_iff] at h
  obtain ⟨condition, hcondition, effect, heffect, h⟩ := h
  cases h
  refine ⟨?_, condition, hcondition, rfl⟩
  cases himage : t.pruning.image r.effect with
  | always => rw [himage] at heffect; cases heffect
  | never => rw [himage] at heffect; cases heffect
  | fact g => rw [himage] at heffect; exact congrArg Image.fact (Option.some.inj heffect)

omit hw hσ in
theorem fact?_eq_some {i : Image} {f : Fact} (h : i.fact? = some f) : i = .fact f := by
  cases i with
  | always => cases h
  | never => cases h
  | fact g => exact congrArg Image.fact (Option.some.inj h)

omit hw hσ in
/-- The image of an effect. -/
theorem of_effect?_eq_some {preconditions : List Fact} {e e' : Effect}
    (h : t.pruning.effect? preconditions e = some e') :
    t.pruning.image e.afterFact = .fact e'.afterFact ∧
      t.pruning.facts? e.condition = some e'.condition ∧
      (e.beforeFact? = none ∧ e'.before = none ∨
        ∃ f g, e.beforeFact? = some f ∧ t.pruning.image f = .fact g ∧
          e'.before = some g.value) := by
  rw [Pruning.effect?] at h
  cases hb : e.beforeFact? with
  | none =>
      simp only [hb, Option.bind_eq_bind, Option.bind_eq_some_iff, Option.pure_def,
        Option.some.injEq] at h
      obtain ⟨after, hafter, before, rfl, condition, hcondition, h⟩ := h
      split at h
      next =>
        cases h
        exact ⟨fact?_eq_some hafter, hcondition, .inl ⟨rfl, rfl⟩⟩
      next => cases h
  | some f =>
      simp only [hb, Option.bind_eq_bind, Option.bind_eq_some_iff, Option.map_eq_map] at h
      obtain ⟨after, hafter, before, hbefore, condition, hcondition, h⟩ := h
      obtain ⟨g, hg, rfl⟩ := Option.map_eq_some_iff.mp hbefore
      split at h
      next =>
        cases h
        exact ⟨fact?_eq_some hafter, hcondition, .inr ⟨f, g, rfl, fact?_eq_some hg, rfl⟩⟩
      next => cases h

omit hσ in
/-- The image of the old value of an effect. -/
theorem beforeFact?_of_effect? {preconditions : List Fact} {e e' : Effect}
    (hvar : e.var < t.vars.size) (h : t.pruning.effect? preconditions e = some e') :
    e.beforeFact? = none ∧ e'.beforeFact? = none ∨ ∃ f g, e.beforeFact? = some f ∧
      t.pruning.image f = .fact g ∧ e'.beforeFact? = some g := by
  obtain ⟨hafter, -, ⟨hnone, hnone'⟩ | ⟨f, g, hf, hg, hbefore⟩⟩ := of_effect?_eq_some h
  · exact .inl ⟨hnone, by simp [Effect.beforeFact?, hnone']⟩
  · refine .inr ⟨f, g, hf, hg, ?_⟩
    obtain ⟨b, -, rfl⟩ := Option.map_eq_some_iff.mp hf
    obtain ⟨-, -, rfl⟩ := of_image_fact hw (f := ⟨e.var, b⟩) hvar hg
    have hvar' : e'.var = t.newNumber e.var :=
      congrArg Fact.var (of_image_fact hw (f := e.afterFact) hvar hafter).2.2
    simp [Effect.beforeFact?, hbefore, hvar']

omit hw hσ in
theorem keeps_of_ne {var x y : Nat} (hx : t.CanTake var x) (hy : t.CanTake var y)
    (hne : x ≠ y) : t.Keeps var := by
  rw [Keeps, Pruning.isKept, decide_eq_true_eq]
  intro hlen
  obtain ⟨single, hsingle⟩ := List.length_eq_one_iff.mp hlen
  rw [CanTake, hsingle, List.mem_singleton] at hx hy
  exact hne (hx.trans hy.symm)

/-- An effect that takes place and changes its variable has an image. -/
theorem exists_effect? (ho : o ∈ t.operators) (happ : o.Applicable σ) {preconditions : List Fact}
    (hp : t.pruning.facts? o.preconditions = some preconditions) {e : Effect}
    (he : e ∈ o.effects) (hc : FactsHold σ e.condition) (hne : e.after ≠ σ e.var) :
    ∃ e', t.pruning.effect? preconditions e = some e' := by
  have hfits := hw.operators o ho
  have hvar : e.var < t.vars.size := hasFact_lt (hfits.after e he)
  have hafter : t.CanTake e.var e.after := canTake_of_sets hw hσ ho happ ⟨e, he, hc, rfl⟩
  have hkeeps : t.Keeps e.var := keeps_of_ne hafter (hσ e.var hvar) hne
  have himage : ∀ {x}, t.CanTake e.var x →
      t.pruning.image ⟨e.var, x⟩ = .fact ⟨t.newNumber e.var, t.newValue e.var x⟩ := by
    intro x hx
    rw [image_eq hw (f := ⟨e.var, x⟩) hvar, if_pos hx, if_pos hkeeps]
  have hcond : ∀ f ∈ e.condition, f.var < t.vars.size :=
    fun f hf => hasFact_lt (hfits.condition e he f hf)
  have hpre : ∀ f ∈ o.preconditions, f.var < t.vars.size :=
    fun f hf => hw.precondition_lt ho hf
  obtain ⟨condition, hcondition⟩ := Option.ne_none_iff_exists'.mp fun hnone =>
    facts?_eq_none hw hσ hcond hnone hc
  -- the conditions and the preconditions hold in the same valuation
  have hcompatible : ∀ c ∈ condition, ∀ f ∈ preconditions, ¬ f.var = c.var ∨ f = c := by
    intro c hcmem f hf
    by_cases hfc : f.var = c.var
    · have hch := (factsHold_facts? hw hσ hcond hcondition).mpr hc c hcmem
      have hfh := (factsHold_facts? hw hσ hpre hp).mpr happ f hf
      exact .inr (hfh.eq hch hfc)
    · exact .inl hfc
  rw [Pruning.effect?, Effect.afterFact, himage hafter]
  cases hb : e.before with
  | none =>
      simpa [Effect.beforeFact?, hb, hcondition, Image.fact?] using hcompatible
  | some b =>
      have hbefore : σ e.var = b := happ ⟨e.var, b⟩
        (Operator.mem_preconditions.mpr (.inr ⟨e, he, by simp [Effect.beforeFact?, hb]⟩))
      have htake : t.CanTake e.var b := hbefore ▸ hσ e.var hvar
      have hvalue : t.newValue e.var b ≠ t.newValue e.var e.after := fun h =>
        hne (((List.idxOf_inj htake).mp h).symm.trans hbefore.symm)
      simpa [Effect.beforeFact?, hb, himage htake, hcondition, Image.fact?, hvalue]
        using hcompatible

end Images

/-- What the image of an operator is made of. -/
theorem of_operator?_eq_some {o' : Operator} (h : t.pruning.operator? o = some o') :
    ∃ preconditions, t.pruning.facts? o.preconditions = some preconditions ∧
      o' = .ofParts o.name (preconditions.filter
        (·.var ∉ (o.effects.filterMap (t.pruning.effect? preconditions)).map (·.var)))
        (o.effects.filterMap (t.pruning.effect? preconditions)) o.cost := by
  simp only [Pruning.operator?, Option.bind_eq_bind, Option.bind_eq_some_iff] at h
  obtain ⟨preconditions, hp, h⟩ := h
  split at h
  next => cases h
  next =>
    cases h
    exact ⟨preconditions, hp, rfl⟩

theorem name_cost_of_operator? {o' : Operator} (h : t.pruning.operator? o = some o') :
    o'.name = o.name ∧ o'.cost = o.cost := by
  obtain ⟨preconditions, -, rfl⟩ := of_operator?_eq_some h
  exact ⟨rfl, rfl⟩

section Operators

variable (hw : t.IsWellFormed) (hσ : t.Possible σ) (ho : o ∈ t.operators)
include hw hσ ho

theorem applicable_operator? (htidy : t.OperatorsAreTidy) {o' : Operator}
    (h : t.pruning.operator? o = some o') :
    o'.Applicable (t.prunedValuation σ) ↔ o.Applicable σ := by
  obtain ⟨preconditions, hp, rfl⟩ := of_operator?_eq_some h
  have hpre : ∀ f ∈ o.preconditions, f.var < t.vars.size := fun f hf => hw.precondition_lt ho hf
  rw [Operator.applicable_ofParts]
  refine Iff.trans ?_ (factsHold_facts? hw hσ hpre hp)
  constructor
  · rintro ⟨hprevail, hbefore⟩ g hg
    by_cases hchanged : g.var ∈ (o.effects.filterMap (t.pruning.effect? preconditions)).map (·.var)
    · obtain ⟨e', he', hvar⟩ := List.mem_map.mp hchanged
      obtain ⟨e, he, hmatch⟩ := List.mem_filterMap.mp he'
      obtain ⟨f, hf, hfimage⟩ := (mem_facts? hp).mp hg
      have hevar : e.var < t.vars.size := hasFact_lt ((hw.operators o ho).after e he)
      obtain ⟨-, hke, hafter⟩ :=
        of_image_fact hw (f := e.afterFact) hevar (of_effect?_eq_some hmatch).1
      obtain ⟨-, hkf, rfl⟩ := of_image_fact hw (hpre f hf) hfimage
      have hnumber : t.newNumber f.var = t.newNumber e.var :=
        hvar.symm.trans (congrArg Fact.var hafter)
      have hsame : f.var = e.var := newNumber_inj hw hkf hke (hpre f hf) hevar hnumber
      -- the effects on the variable have the same old value
      have hebefore : e.beforeFact? = some f := by
        rcases Operator.mem_preconditions.mp hf with hf | ⟨d, hd, hdf⟩
        · exact absurd hsame (htidy.apart o ho f hf e he)
        · obtain ⟨b, hb, rfl⟩ := Option.map_eq_some_iff.mp hdf
          have heb : e.before = some b := (htidy.before o ho e he d hd hsame.symm).trans hb
          simpa [Effect.beforeFact?, heb] using hsame.symm
      rcases beforeFact?_of_effect? hw hevar hmatch with ⟨hnone, -⟩ | ⟨f', g', hf', hg', hg⟩
      · cases hebefore.symm.trans hnone
      · obtain rfl := Option.some.inj (hebefore.symm.trans hf')
        obtain rfl := Image.fact.inj (hfimage.symm.trans hg')
        exact hbefore e' he' _ hg
    · exact hprevail g (List.mem_filter.mpr ⟨hg, decide_eq_true hchanged⟩)
  · intro hall
    refine ⟨fun g hg => hall g (List.mem_of_mem_filter hg), fun e' he' f' hf' => ?_⟩
    obtain ⟨e, he, hmatch⟩ := List.mem_filterMap.mp he'
    have hevar : e.var < t.vars.size := hasFact_lt ((hw.operators o ho).after e he)
    rcases beforeFact?_of_effect? hw hevar hmatch with ⟨-, hnone⟩ | ⟨f, g, hf, hg, hg'⟩
    · cases hf'.symm.trans hnone
    · obtain rfl := Option.some.inj (hf'.symm.trans hg')
      exact hall _ ((mem_facts? hp).mpr ⟨f, Operator.mem_preconditions.mpr (.inr ⟨e, he, hf⟩), hg⟩)

/-- The image of an operator sets values of the image of the next valuation only. -/
theorem holds_apply_of_sets_operator? (happ : o.Applicable σ) (hc : o.IsConsistent σ)
    {o' : Operator} (h : t.pruning.operator? o = some o') {g : Fact}
    (hg : o'.Sets (t.prunedValuation σ) g) : g.Holds (t.prunedValuation (o.apply σ)) := by
  obtain ⟨preconditions, hp, rfl⟩ := of_operator?_eq_some h
  have hfits := hw.operators o ho
  obtain ⟨e', he', hc', rfl⟩ := Operator.sets_ofParts.mp hg
  obtain ⟨e, he, hmatch⟩ := List.mem_filterMap.mp he'
  obtain ⟨himage, hcondition, -⟩ := of_effect?_eq_some hmatch
  have hcond := (factsHold_facts? hw hσ
    (fun f hf => hasFact_lt (hfits.condition e he f hf)) hcondition).mp hc'
  exact (holds_image_iff hw (possible_apply hw hσ ho happ hc) (hasFact_lt (hfits.after e he))
    himage).mpr (hc.holds_apply ⟨e, he, hcond, rfl⟩)

theorem apply_operator? (happ : o.Applicable σ) (hc : o.IsConsistent σ) {o' : Operator}
    (h : t.pruning.operator? o = some o') :
    o'.apply (t.prunedValuation σ) = t.prunedValuation (o.apply σ) := by
  have hτ := possible_apply hw hσ ho happ hc
  refine Operator.apply_eq (fun g hg => holds_apply_of_sets_operator? hw hσ ho happ hc h hg)
    fun w hne => ?_
  by_cases hw' : ∃ var < t.vars.size, t.Keeps var ∧ w = t.newNumber var
  · obtain ⟨preconditions, hp, rfl⟩ := of_operator?_eq_some h
    obtain ⟨var, hvar, hk, rfl⟩ := hw'
    rw [prunedValuation_newNumber hw hτ hvar hk, prunedValuation_newNumber hw hσ hvar hk] at hne
    rw [prunedValuation_newNumber hw hτ hvar hk]
    have hchanged : o.apply σ var ≠ σ var := fun he => hne (by rw [he])
    obtain ⟨e, he, hcond, hafter⟩ := hc.sets_of_ne hchanged
    obtain ⟨rfl, hvalue⟩ := Fact.mk.inj hafter
    obtain ⟨e', he'⟩ := exists_effect? hw hσ ho happ hp he hcond (hvalue ▸ hchanged)
    obtain ⟨himage, hcondition, -⟩ := of_effect?_eq_some he'
    refine Operator.sets_ofParts.mpr ⟨e', List.mem_filterMap.mpr ⟨e, he, he'⟩, ?_, ?_⟩
    · exact (factsHold_facts? hw hσ
        (fun f hf => hasFact_lt ((hw.operators o ho).condition e he f hf)) hcondition).mpr hcond
    · rw [← hvalue]
      exact (of_image_fact hw hvar himage).2.2
  · have hzero : ∀ var < t.vars.size, t.Keeps var → w ≠ t.newNumber var :=
      fun var hvar hk he => hw' ⟨var, hvar, hk, he⟩
    rw [prunedValuation_eq_zero hw hτ hzero, prunedValuation_eq_zero hw hσ hzero] at hne
    exact absurd rfl hne

/-- An operator without an image changes nothing where it is applicable. -/
theorem apply_eq_of_operator?_eq_none (happ : o.Applicable σ) (hc : o.IsConsistent σ)
    (h : t.pruning.operator? o = none) : o.apply σ = σ := by
  have hpre : ∀ f ∈ o.preconditions, f.var < t.vars.size := fun f hf => hw.precondition_lt ho hf
  obtain ⟨preconditions, hp⟩ := Option.ne_none_iff_exists'.mp fun hnone =>
    facts?_eq_none hw hσ hpre hnone happ
  funext var
  by_contra hne
  obtain ⟨e, he, hcond, hafter⟩ := hc.sets_of_ne hne
  obtain ⟨rfl, hvalue⟩ := Fact.mk.inj hafter
  obtain ⟨e', he'⟩ := exists_effect? hw hσ ho happ hp he hcond (hvalue ▸ hne)
  have hmem : e' ∈ o.effects.filterMap (t.pruning.effect? preconditions) :=
    List.mem_filterMap.mpr ⟨e, he, he'⟩
  simp [Pruning.operator?, hp] at h
  rw [h e he] at he'
  cases he'

end Operators

end Task
end FiniteDomain
end FinitePlanning
