import Mathlib.Data.List.Perm.Subperm
import FinitePlanning.Proofs.Pruning.Bisimulation

/-!
Tasks stay well formed when the values that cannot be taken are removed. A derived variable that is
kept has both of its values, which keep their numbers.
-/

namespace FinitePlanning
namespace FiniteDomain
namespace Task

variable {t t' : Task} {goal : List Fact} {f g : Fact} {var w x layer : Nat}

section

variable (hw : t.IsWellFormed)
include hw

theorem getElem?_prunedVars_newNumber (hvar : var < t.vars.size) (hk : t.Keeps var) :
    (t.withoutValues goal).vars[t.newNumber var]? = some (t.prunedVariable var) := by
  rw [withoutValues, getElem?_prunedVars hw, getElem?_kept_newNumber t.prunedVariable hw hvar hk]

theorem hasFact_newValue (hvar : var < t.vars.size) (hk : t.Keeps var) (hx : t.CanTake var x) :
    (t.withoutValues goal).hasFact ⟨t.newNumber var, t.newValue var x⟩ = true :=
  hasFact_iff.mpr ⟨_, getElem?_prunedVars_newNumber hw hvar hk, List.idxOf_lt_length_of_mem hx⟩

theorem hasFact_image (hf : t.hasFact f = true) (h : t.pruning.image f = .fact g) :
    (t.withoutValues goal).hasFact g = true := by
  have hvar := hasFact_lt hf
  obtain ⟨htake, hk, rfl⟩ := of_image_fact hw hvar h
  exact hasFact_newValue hw hvar hk htake

theorem hasFact_facts? {fs fs' : List Fact} (hfs : ∀ f ∈ fs, t.hasFact f = true)
    (h : t.pruning.facts? fs = some fs') (hg : g ∈ fs') :
    (t.withoutValues goal).hasFact g = true := by
  obtain ⟨f, hf, himage⟩ := (mem_facts? h).mp hg
  exact hasFact_image hw (hfs f hf) himage

/-- The number of a variable that is kept. -/
theorem exists_of_getElem?_kept {α : Type} {k : Nat → α} {a : α}
    (h : ((List.range t.vars.size).filterMap fun var =>
      if t.Keeps var then some (k var) else none)[w]? = some a) :
    ∃ var < t.vars.size, t.Keeps var ∧ w = t.newNumber var ∧ a = k var := by
  obtain ⟨i, var, hi, hvalue, rfl⟩ := exists_of_getElem?_filterMap h
  obtain ⟨hlt, hvar⟩ := List.getElem?_eq_some_iff.mp hi
  obtain rfl : i = var := List.getElem_range hlt ▸ hvar
  rw [List.length_range] at hlt
  split at hvalue
  next hk =>
    exact ⟨i, hlt, hk, countP_isSome_kept k hw (Nat.le_of_lt hlt), (Option.some.inj hvalue).symm⟩
  next => cases hvalue

theorem length_kept {α : Type} (k : Nat → α) : ((List.range t.vars.size).filterMap fun var =>
    if t.Keeps var then some (k var) else none).length = t.newNumber t.vars.size := by
  rw [List.length_filterMap_eq_countP, ← countP_isSome_kept k hw (Nat.le_refl _),
    List.take_of_length_le (Nat.le_of_eq List.length_range)]

theorem getElem?_prunedState : (t.withoutValues goal).init[w]? =
    ((List.range t.vars.size).filterMap fun var =>
      if t.Keeps var then some (t.newValue var (t.initialValue var)) else none)[w]? := by
  have hinit : t.init = ((List.range t.vars.size).map t.initialValue).toArray := by
    refine Array.ext_getElem? fun i => ?_
    by_cases hi : i < t.vars.size
    · simp [hi, hw.init_size, initialValue]
    · simp [hi, hw.init_size]
  rw [withoutValues]
  dsimp only
  rw [hinit, getElem?_state_kept hw (possible_initialValue hw)]

theorem wellFormed_prunedVariable (hvar : var < t.vars.size) (hk : t.Keeps var) :
    (t.prunedVariable var).IsWellFormed := by
  have hget : t.vars[var]? = some (t.vars.getD var default) := by simp [hvar]
  have hv := hw.vars _ (Array.mem_toList_iff.mpr (Array.mem_of_getElem? hget))
  obtain ⟨hpairwise, hlt⟩ := pairwise_reachableValues hw hget
  have htake := possible_initialValue hw var hvar
  have hpos : 0 < (t.reachableValues.getD var []).length := List.length_pos_of_mem htake
  refine ⟨hpos, List.length_map _, fun hderived => ?_⟩
  have hrange : (t.vars.getD var default).range = 2 := hv.binary hderived
  have hle : (t.reachableValues.getD var []).length ≤ 2 := by
    have hnodup : (t.reachableValues.getD var []).Nodup := hpairwise.imp Nat.ne_of_lt
    have hsub : t.reachableValues.getD var [] ⊆ List.range (t.vars.getD var default).range :=
      fun x hx => List.mem_range.mpr (hlt x hx)
    have hlength := (List.subperm_of_subset hnodup hsub).length_le
    rwa [List.length_range, hrange] at hlength
  have hone : (t.reachableValues.getD var []).length ≠ 1 := of_decide_eq_true hk
  have htwo : (t.reachableValues.getD var []).length = 2 := by omega
  exact htwo

theorem size_prunedState :
    (t.withoutValues goal).init.size = (t.withoutValues goal).vars.size := by
  have hinit : (t.withoutValues goal).init.toList = (List.range t.vars.size).filterMap fun var =>
      if t.Keeps var then some (t.newValue var (t.initialValue var)) else none :=
    List.ext_getElem? fun w => by rw [Array.getElem?_toList, getElem?_prunedState hw]
  have hvars : (t.withoutValues goal).vars.toList = (List.range t.vars.size).filterMap fun var =>
      if t.Keeps var then some (t.prunedVariable var) else none :=
    List.ext_getElem? fun w => by
      rw [Array.getElem?_toList, withoutValues, getElem?_prunedVars hw]
  rw [← Array.length_toList, ← Array.length_toList, hinit, hvars, length_kept hw, length_kept hw]

/-- The values of derived variables keep their numbers. -/
theorem newValue_of_derived (hd : t.IsDerived var) (hvar : var < t.vars.size) (hk : t.Keeps var)
    (hx : t.CanTake var x) : t.newValue var x = x := by
  have hget : t.vars[var]? = some (t.vars.getD var default) := by simp [hvar]
  have hv := hw.vars _ (Array.mem_toList_iff.mpr (Array.mem_of_getElem? hget))
  have hderived : (t.vars.getD var default).isDerived = true := by
    rw [IsDerived, layerOf?, hget] at hd
    exact hd
  obtain ⟨hpairwise, hlt⟩ := pairwise_reachableValues hw hget
  have hlen : (t.reachableValues.getD var []).length = 2 :=
    (wellFormed_prunedVariable hw hvar hk).binary hderived
  rw [hv.binary hderived] at hlt
  rw [CanTake] at hx
  rw [newValue]
  obtain ⟨y, z, hvalues⟩ := List.length_eq_two.mp hlen
  rw [hvalues] at hpairwise hlt hx ⊢
  have hyz : y < z := by simpa using hpairwise
  have hz : z < 2 := hlt z (by simp)
  obtain rfl : y = 0 := by omega
  obtain rfl : z = 1 := by omega
  rcases List.mem_cons.mp hx with rfl | hx
  · rfl
  · rw [List.mem_singleton.mp hx]
    rfl

theorem fits_operator? {o o' : Operator} (ho : t.OperatorFits o)
    (h : t.pruning.operator? o = some o') : (t.withoutValues goal).OperatorFits o' := by
  obtain ⟨preconditions, hp, rfl⟩ := of_operator?_eq_some h
  have hvalid : ∀ f ∈ o.preconditions, t.hasFact f = true := by
    intro f hf
    rcases Operator.mem_preconditions.mp hf with hf | ⟨e, he, hf⟩
    · exact ho.prevail f hf
    · exact ho.before e he f hf
  have heffect : ∀ e' ∈ (Operator.ofParts o.name (preconditions.filter
      (·.var ∉ (o.effects.filterMap (t.pruning.effect? preconditions)).map (·.var)))
      (o.effects.filterMap (t.pruning.effect? preconditions)) o.cost).effects,
      ∃ e ∈ o.effects, ∃ d, t.pruning.effect? preconditions e = some d ∧
        e' = { d with condition := orderedSet d.condition } := by
    intro e' he'
    obtain ⟨d, hd, rfl⟩ := List.mem_map.mp (mem_orderedSet.mp he')
    obtain ⟨e, he, hd⟩ := List.mem_filterMap.mp hd
    exact ⟨e, he, d, hd, rfl⟩
  refine ⟨fun f hf => ?_, fun e' he' f hf => ?_, fun e' he' => ?_, fun e' he' f hf => ?_,
    fun e' he' => ?_⟩
  · exact hasFact_facts? hw hvalid hp (List.mem_of_mem_filter (mem_orderedSet.mp hf))
  · obtain ⟨e, he, d, hd, rfl⟩ := heffect e' he'
    exact hasFact_facts? hw (ho.condition e he) (of_effect?_eq_some hd).2.1 (mem_orderedSet.mp hf)
  · obtain ⟨e, he, d, hd, rfl⟩ := heffect e' he'
    exact hasFact_image hw (ho.after e he) (of_effect?_eq_some hd).1
  · obtain ⟨e, he, d, hd, rfl⟩ := heffect e' he'
    have hf : d.beforeFact? = some f := hf
    rcases beforeFact?_of_effect? hw (hasFact_lt (ho.after e he)) hd with
      ⟨-, hnone⟩ | ⟨b, g, hb, himage, hg⟩
    · cases hf.symm.trans hnone
    · obtain rfl := Option.some.inj (hf.symm.trans hg)
      exact hasFact_image hw (ho.before e he b hb) himage
  · obtain ⟨e, he, d, hd, rfl⟩ := heffect e' he'
    have hvar := hasFact_lt (ho.after e he)
    obtain ⟨-, hk, hafter⟩ := of_image_fact hw hvar (of_effect?_eq_some hd).1
    have hnumber : d.var = t.newNumber e.var := congrArg Fact.var hafter
    dsimp only
    rw [hnumber]
    exact (layerOf?_newNumber hw hvar hk).trans (ho.basic e he)

section Derived

variable (hr : t.ResetsToOne)
include hr

theorem fits_rule? {r r' : Rule} (hrule : r ∈ t.rules) (h : t.pruning.rule? r = some r') :
    (t.withoutValues goal).RuleFits r' ∧ r'.effect.value = 0 := by
  obtain ⟨himage, condition, hcondition, hordered⟩ := of_rule?_eq_some h
  obtain ⟨hvalid, layer, hlayer, hfits⟩ := hw.rules r hrule
  have hvar := hasFact_lt hvalid
  obtain ⟨htake, hk, heffect⟩ := of_image_fact hw hvar himage
  have hderived : t.IsDerived r.effect.var := by rw [IsDerived, hlayer]; rfl
  have hzero := hr.rules r hrule
  refine ⟨⟨hasFact_image hw hvalid himage, layer, ?_, fun g hg => ?_⟩, ?_⟩
  · rw [heffect, layerOf?_newNumber hw hvar hk, hlayer]
  · rw [hordered, mem_orderedSet] at hg
    obtain ⟨f, hf, himage⟩ := (mem_facts? hcondition).mp hg
    have hfit := hfits f hf
    have hfvar := hasFact_lt hfit.valid
    obtain ⟨hftake, hfk, rfl⟩ := of_image_fact hw hfvar himage
    refine ⟨hasFact_newValue hw hfvar hfk hftake, fun below hbelow => ?_, fun below hbelow hfalse => ?_⟩
    · exact hfit.le below ((layerOf?_newNumber hw hfvar hfk).symm.trans hbelow)
    · have hbelow := (layerOf?_newNumber hw hfvar hfk).symm.trans hbelow
      refine hfit.lt below hbelow ?_
      rw [← hfalse]
      exact (newValue_of_derived hw (by rw [IsDerived, hbelow]; rfl) hfvar hfk hftake).symm
  · rw [heffect]
    exact (newValue_of_derived hw hderived hvar hk htake).trans hzero

theorem isWellFormed_withoutValues (hgoal : t.pruning.facts? t.goal = some goal) :
    (t.withoutValues goal).IsWellFormed ∧ (t.withoutValues goal).ResetsToOne := by
  refine ⟨⟨fun v hv => ?_, ?_, fun w value hi => ?_, fun m hm f hf => ?_, fun f hf => ?_,
    fun o ho => ?_, fun r hrule => ?_⟩, fun w hw' => ?_, fun r hrule => ?_⟩
  · obtain ⟨w, hv⟩ := List.getElem?_of_mem hv
    rw [Array.getElem?_toList, withoutValues, getElem?_prunedVars hw] at hv
    obtain ⟨var, hvar, hk, -, rfl⟩ := exists_of_getElem?_kept hw hv
    exact wellFormed_prunedVariable hw hvar hk
  · exact size_prunedState hw
  · rw [getElem?_prunedState hw] at hi
    obtain ⟨var, hvar, hk, rfl, rfl⟩ := exists_of_getElem?_kept hw hi
    exact hasFact_newValue hw hvar hk (possible_initialValue hw var hvar)
  · obtain ⟨m', hm', hm⟩ := List.mem_filterMap.mp hm
    rw [Pruning.mutex?] at hm
    split at hm
    · obtain rfl := Option.some.inj hm
      obtain ⟨g, hg, hf⟩ := List.mem_filterMap.mp (mem_orderedSet.mp hf)
      exact hasFact_image hw (hw.mutexes m' hm' g hg) (fact?_eq_some hf)
    · cases hm
  · exact hasFact_facts? hw hw.goal hgoal (List.mem_mergeSort.mp hf)
  · obtain ⟨o', ho', ho⟩ := List.mem_filterMap.mp ho
    exact fits_operator? hw (hw.operators o' ho') ho
  · obtain ⟨r', hr', hrule⟩ := List.mem_filterMap.mp hrule
    exact (fits_rule? hw hr hr' hrule).1
  · by_cases hex : ∃ var < t.vars.size, t.Keeps var ∧ w = t.newNumber var
    · obtain ⟨var, hvar, hk, rfl⟩ := hex
      have hd := (isDerived_newNumber hw hvar hk).mp hw'
      have htake := possible_initialValue hw var hvar
      rw [initialValue_withoutValues hw,
        prunedValuation_newNumber hw (possible_initialValue hw) hvar hk,
        newValue_of_derived hw hd hvar hk htake, hr.initial var hd]
    · have hnone : (t.withoutValues goal).layerOf? w = none :=
        layerOf?_eq_none hw fun var hvar hk he => hex ⟨var, hvar, hk, he⟩
      rw [IsDerived, hnone] at hw'
      cases hw'
  · obtain ⟨r', hr', hrule⟩ := List.mem_filterMap.mp hrule
    obtain ⟨-, hzero⟩ : (t.withoutValues goal).RuleFits _ ∧ _ := fits_rule? hw hr hr' hrule
    exact hzero

end Derived
end
end Task
end FiniteDomain
end FinitePlanning
