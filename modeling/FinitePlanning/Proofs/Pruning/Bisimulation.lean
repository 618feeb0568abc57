import Mathlib.Data.List.Permutation
import FinitePlanning.Proofs.Semantics.FiniteDomain
import FinitePlanning.Proofs.FiniteDomain.Evaluation
import FinitePlanning.Proofs.Pruning.Operators

/-!
Removing the values that cannot be taken is a bisimulation. The rules of the new task give
the variables that are kept the images of the values that the old rules give them.
-/

namespace FinitePlanning
namespace FiniteDomain
namespace Task

variable {t t' : Task} {σ τ : Valuation} {goal : List Fact} {var w layer : Nat}

/-- The task without the values that cannot be taken. -/
def withoutValues (t : Task) (goal : List Fact) : Task :=
  { t with
    vars := Pruning.vars t.vars t.reachableValues
    mutexes := t.mutexes.filterMap t.pruning.mutex?
    init := t.pruning.state t.init
    goal := goal.mergeSort fun a b => (compare a b).isLE
    operators := t.operators.filterMap t.pruning.operator?
    rules := t.rules.filterMap t.pruning.rule? }

theorem pruneValues_eq (t : Task) : t.pruneValues = match t.pruning.facts? t.goal with
    | none => .error .goalSimplifiedToFalse
    | some [] => .error .goalSimplifiedToEmpty
    | some goal => .ok (t.withoutValues goal) := rfl

theorem pruneValues_eq_ok (h : t.pruneValues = .ok t') :
    ∃ goal, t.pruning.facts? t.goal = some goal ∧ goal ≠ [] ∧ t' = t.withoutValues goal := by
  rw [pruneValues_eq] at h
  split at h
  next => cases h
  next => cases h
  next goal hne hgoal =>
    cases h
    exact ⟨goal, hgoal, fun hnil => hne hnil, rfl⟩

theorem pruneValues_eq_error {reason : Trivial} (h : t.pruneValues = .error reason) :
    reason = .goalSimplifiedToFalse ∧ t.pruning.facts? t.goal = none ∨
      reason = .goalSimplifiedToEmpty ∧ t.pruning.facts? t.goal = some [] := by
  rw [pruneValues_eq] at h
  split at h
  next hgoal =>
    cases h
    exact .inl ⟨rfl, hgoal⟩
  next hgoal =>
    cases h
    exact .inr ⟨rfl, hgoal⟩
  next => cases h

/-! ### Variables -/

/-- A variable without the values that cannot be taken. -/
def prunedVariable (t : Task) (var : Nat) : Variable :=
  let v := t.vars.getD var default
  let values := t.reachableValues.getD var []
  { v with range := values.length, names := values.map (v.names.getD · "") }

theorem getElem?_prunedVars (hw : t.IsWellFormed) :
    (Pruning.vars t.vars t.reachableValues)[w]? =
      ((List.range t.vars.size).filterMap fun var =>
        if t.Keeps var then some (t.prunedVariable var) else none)[w]? := by
  have hzip : (t.vars.zip t.reachableValues).toList =
      (List.range t.vars.size).map fun var => (t.vars.getD var default, t.reachableValues.getD var []) := by
    have hsize := size_reachableValues hw
    refine List.ext_getElem? fun i => ?_
    rw [Array.getElem?_toList, List.getElem?_map]
    by_cases hi : i < t.vars.size
    · simp [hi, hsize]
    · simp [hi, hsize]
  rw [Pruning.vars, ← Array.getElem?_toList, Array.toList_map, Array.toList_filter, hzip,
    List.filter_map, List.map_map, ← List.filterMap_eq_map, List.filterMap_filter]
  rfl

theorem layerOf?_newNumber (hw : t.IsWellFormed) (hvar : var < t.vars.size) (hk : t.Keeps var) :
    (t.withoutValues goal).layerOf? (t.newNumber var) = t.layerOf? var := by
  rw [layerOf?, withoutValues, getElem?_prunedVars hw, getElem?_kept_newNumber t.prunedVariable hw hvar hk]
  simp [layerOf?, prunedVariable, hvar]

/-- Other numbers are not those of derived variables. -/
theorem layerOf?_eq_none (hw : t.IsWellFormed)
    (h : ∀ var < t.vars.size, t.Keeps var → w ≠ t.newNumber var) :
    (t.withoutValues goal).layerOf? w = none := by
  rw [layerOf?, withoutValues, getElem?_prunedVars hw, getElem?_kept_eq_none t.prunedVariable hw h]
  rfl

theorem isDerived_newNumber (hw : t.IsWellFormed) (hvar : var < t.vars.size) (hk : t.Keeps var) :
    (t.withoutValues goal).IsDerived (t.newNumber var) ↔ t.IsDerived var := by
  simp only [IsDerived, layerOf?_newNumber hw hvar hk]

/-! ### Derived variables -/

theorem initialValue_withoutValues (hw : t.IsWellFormed) :
    (t.withoutValues goal).initialValue = t.prunedValuation t.initialValue := by
  funext w
  have hinit : t.init = ((List.range t.vars.size).map t.initialValue).toArray := by
    refine Array.ext_getElem? fun i => ?_
    by_cases hi : i < t.vars.size
    · simp [hi, hw.init_size, initialValue]
    · simp [hi, hw.init_size]
  rw [initialValue, prunedValuation, ← hinit]
  rfl

theorem prunedValuation_reset (hw : t.IsWellFormed) (hσ : t.Possible σ) :
    t.prunedValuation (t.reset σ) = (t.withoutValues goal).reset (t.prunedValuation σ) := by
  refine prunedValuation_ext hw (possible_reset hw hσ) hσ (fun w => ?_) fun var hvar hk => ?_
  · by_cases hw' : ∃ var < t.vars.size, t.Keeps var ∧ w = t.newNumber var
    · exact .inr hw'
    · refine .inl (reset_of_not_derived ?_)
      simp [IsDerived, layerOf?_eq_none hw fun var hvar hk he => hw' ⟨var, hvar, hk, he⟩]
  · by_cases hd : t.IsDerived var
    · rw [reset_of_derived hd, reset_of_derived ((isDerived_newNumber hw hvar hk).mpr hd),
        initialValue_withoutValues hw,
        prunedValuation_newNumber hw (possible_initialValue hw) hvar hk]
    · rw [reset_of_not_derived hd,
        reset_of_not_derived (fun h => hd ((isDerived_newNumber hw hvar hk).mp h)),
        prunedValuation_newNumber hw hσ hvar hk]

theorem rulesOf_withoutValues (hw : t.IsWellFormed) :
    (t.withoutValues goal).rulesOf layer = (t.rulesOf layer).filterMap t.pruning.rule? := by
  rw [rulesOf, rulesOf, withoutValues, List.filter_filterMap, List.filterMap_filter]
  refine List.filterMap_congr fun r hr => ?_
  cases hmatch : t.pruning.rule? r with
  | none => simp
  | some r' =>
      have hvalid := hasFact_lt (hw.rules r hr).valid
      obtain ⟨-, hk, heffect⟩ := of_image_fact hw hvalid (of_rule?_eq_some hmatch).1
      have hlayer : (t.withoutValues goal).layerOf? r'.effect.var = t.layerOf? r.effect.var := by
        rw [heffect]
        exact layerOf?_newNumber hw hvalid hk
      rw [withoutValues] at hlayer
      simp [Option.filter, hlayer]

section Settles

variable (hw : t.IsWellFormed)
include hw

/-- What the image of a rule asks for and sets. -/
theorem rule?_spec (hσ : t.Possible σ) {r r' : Rule} (hr : r ∈ t.rules)
    (h : t.pruning.rule? r = some r') :
    (FactsHold (t.prunedValuation σ) r'.condition ↔ FactsHold σ r.condition) ∧
      (r'.effect.Holds (t.prunedValuation σ) ↔ r.effect.Holds σ) ∧
        t.prunedValuation (r.effect.set σ) = r'.effect.set (t.prunedValuation σ) := by
  have hvalid := hasFact_lt (hw.rules r hr).valid
  obtain ⟨himage, condition, hcondition, hordered⟩ := of_rule?_eq_some h
  obtain ⟨_, -, hfits⟩ := (hw.rules r hr).layer
  refine ⟨?_, holds_image_iff hw hσ hvalid himage, prunedValuation_set hw hσ hvalid himage⟩
  rw [hordered, Operator.factsHold_orderedSet]
  exact factsHold_facts? hw hσ (fun f hf => hasFact_lt (hfits f hf).valid) hcondition

variable {rules : List Rule} (hrules : ∀ r ∈ rules, r ∈ t.rules)
include hrules

theorem settles_rule? (hσ : t.Possible σ) (h : Settles rules σ τ) :
    Settles (rules.filterMap t.pruning.rule?) (t.prunedValuation σ) (t.prunedValuation τ) := by
  induction h with
  | done hdone =>
      refine .done fun r' hr' hc => ?_
      obtain ⟨r, hr, hmatch⟩ := List.mem_filterMap.mp hr'
      obtain ⟨hcond, heffect, -⟩ := rule?_spec hw hσ (hrules r hr) hmatch
      exact heffect.mpr (hdone r hr (hcond.mp hc))
  | @fire σ τ r hr hc he _ ih =>
      have hnext := ih (possible_set hσ (canTake_of_rule hw (hrules r hr)))
      obtain ⟨r', hmatch⟩ := Option.ne_none_iff_exists'.mp fun hnone =>
        he (holds_of_rule?_eq_none hw hσ (hrules r hr) hnone hc)
      obtain ⟨hcond, heffect, hset⟩ := rule?_spec hw hσ (hrules r hr) hmatch
      rw [hset] at hnext
      exact .fire (List.mem_filterMap.mpr ⟨r, hr, hmatch⟩) (hcond.mpr hc) (mt heffect.mp he) hnext

theorem exists_of_settles_rule? {σ' τ' : Valuation} (hσ : t.Possible σ)
    (hσ' : t.prunedValuation σ = σ') (h : Settles (rules.filterMap t.pruning.rule?) σ' τ') :
    ∃ τ, Settles rules σ τ ∧ t.prunedValuation τ = τ' := by
  induction h generalizing σ with
  | done hdone =>
      subst hσ'
      refine ⟨σ, .done fun r hr hc => ?_, rfl⟩
      cases hmatch : t.pruning.rule? r with
      | none => exact holds_of_rule?_eq_none hw hσ (hrules r hr) hmatch hc
      | some r' =>
          obtain ⟨hcond, heffect, -⟩ := rule?_spec hw hσ (hrules r hr) hmatch
          exact heffect.mp (hdone r' (List.mem_filterMap.mpr ⟨r, hr, hmatch⟩) (hcond.mpr hc))
  | @fire _ τ' r' hr' hc he _ ih =>
      subst hσ'
      obtain ⟨r, hr, hmatch⟩ := List.mem_filterMap.mp hr'
      obtain ⟨hcond, heffect, hset⟩ := rule?_spec hw hσ (hrules r hr) hmatch
      obtain ⟨τ, hτ, rfl⟩ := ih (possible_set hσ (canTake_of_rule hw (hrules r hr))) hset
      exact ⟨τ, .fire hr (hcond.mp hc) (mt heffect.mpr he) hτ, rfl⟩

end Settles

theorem settlesAll_rule?_iff (hw : t.IsWellFormed) {layers : List (List Rule)}
    (hlayers : ∀ rules ∈ layers, ∀ r ∈ rules, r ∈ t.rules) {τ' : Valuation} (hσ : t.Possible σ) :
    SettlesAll (layers.map (·.filterMap t.pruning.rule?)) (t.prunedValuation σ) τ' ↔
      ∃ τ, SettlesAll layers σ τ ∧ t.prunedValuation τ = τ' := by
  induction layers generalizing σ with
  | nil =>
      constructor
      · rintro ⟨⟩
        exact ⟨σ, .nil, rfl⟩
      · rintro ⟨_, ⟨⟩, rfl⟩
        exact .nil
  | cons rules layers ih =>
      rw [List.forall_mem_cons] at hlayers
      constructor
      · rintro (_ | ⟨h, next⟩)
        obtain ⟨τ, hτ, rfl⟩ := exists_of_settles_rule? hw hlayers.1 hσ rfl h
        obtain ⟨υ, hυ, rfl⟩ :=
          (ih hlayers.2 (possible_settles hw hlayers.1 hσ hτ)).mp next
        exact ⟨υ, .cons hτ hυ, rfl⟩
      · rintro ⟨υ, (_ | ⟨h, next⟩), rfl⟩
        exact .cons (settles_rule? hw hlayers.1 hσ h)
          ((ih hlayers.2 (possible_settles hw hlayers.1 hσ h)).mpr ⟨υ, next, rfl⟩)

/-- The new rules lead to the images of the values that the old ones lead to. -/
theorem evaluates_withoutValues_iff (hw : t.IsWellFormed) {τ' : Valuation} (hσ : t.Possible σ) :
    (t.withoutValues goal).Evaluates (t.prunedValuation σ) τ' ↔
      ∃ τ, t.Evaluates σ τ ∧ t.prunedValuation τ = τ' := by
  have hle := Nat.le_max_left t.layerBound (t.withoutValues goal).layerBound
  have hle' := Nat.le_max_right t.layerBound (t.withoutValues goal).layerBound
  have hmap : (List.range (max t.layerBound (t.withoutValues goal).layerBound)).map
      (t.withoutValues goal).rulesOf =
      ((List.range (max t.layerBound (t.withoutValues goal).layerBound)).map t.rulesOf).map
        (·.filterMap t.pruning.rule?) := by
    rw [List.map_map]
    exact List.map_congr_left fun layer _ => rulesOf_withoutValues hw
  simp only [evaluates_iff hle]
  rw [evaluates_iff hle', hmap, ← prunedValuation_reset hw hσ]
  exact settlesAll_rule?_iff hw (List.forall_mem_map.mpr fun layer _ r hr => (mem_rulesOf.mp hr).1)
    (possible_reset hw hσ)

/-! ### Bisimulation -/

section Bisimulation

variable (hw : t.IsWellFormed) (hr : t.ResetsToOne) (htidy : t.OperatorsAreTidy)
  (hc : t.IsConsistent)
include hw hr hc

/-- A dropped operator leads nowhere else. -/
theorem eq_of_operator?_eq_none (hσ : t.Reachable σ) {o : Operator} (ho : o ∈ t.operators)
    (h : t.pruning.operator? o = none) (happ : o.Applicable σ) (hτ : t.Evaluates (o.apply σ) τ) :
    τ = σ := by
  rw [apply_eq_of_operator?_eq_none hw (hσ.possible hw hc) ho happ (hc σ hσ o ho happ) h] at hτ
  obtain ⟨υ, hυ⟩ := hσ.exists_evaluates
  exact hυ.eq_self hw hr hτ

include htidy

theorem isImage_withoutValues (hgoal : t.pruning.facts? t.goal = some goal) :
    t.IsImage (t.withoutValues goal) t.prunedValuation t.pruning.operator? where
  operators := rfl
  name_cost o o' h := name_cost_of_operator? h
  initial σ' := by
    rw [initialValue_withoutValues hw]
    exact evaluates_withoutValues_iff hw (possible_initialValue hw)
  applicable σ hσ o ho o' h := applicable_operator? hw (hσ.possible hw hc) ho htidy h
  step σ hσ o ho happ o' h τ' := by
    have hpossible := hσ.possible hw hc
    have hconsistent := hc σ hσ o ho happ
    rw [apply_operator? hw hpossible ho happ hconsistent h]
    exact evaluates_withoutValues_iff hw (possible_apply hw hpossible ho happ hconsistent)
  dropped σ hσ o ho h happ τ hτ := by rw [eq_of_operator?_eq_none hw hr hc hσ ho h happ hτ]
  goal σ hσ := by
    have hmem : ∀ f, f ∈ (t.withoutValues goal).goal ↔ f ∈ goal := fun f => by
      simp [withoutValues]
    simp only [FactsHold, hmem]
    exact factsHold_facts? hw (hσ.possible hw hc) (fun f hf => hasFact_lt (hw.goal f hf)) hgoal

/-- The new operators set no variable to different values either. -/
theorem isConsistent_withoutValues (hgoal : t.pruning.facts? t.goal = some goal) :
    (t.withoutValues goal).IsConsistent := by
  have himage := isImage_withoutValues hw hr htidy hc hgoal
  intro σ' hσ' o' ho' happ'
  obtain ⟨σ, hσ, rfl⟩ := himage.exists_reachable hσ'
  obtain ⟨o, ho, hmatch⟩ := List.mem_filterMap.mp ho'
  have happ := (himage.applicable σ hσ o ho o' hmatch).mp happ'
  exact Operator.isConsistent_of_holds fun g hg =>
    holds_apply_of_sets_operator? hw (hσ.possible hw hc) ho happ (hc σ hσ o ho happ) hmatch hg

omit hr htidy in
/-- The goal becomes trivial only if all reachable valuations satisfy it, or none. -/
theorem goal_iff_of_pruneValues_eq_error {reason : Trivial} (h : t.pruneValues = .error reason)
    (hσ : t.Reachable σ) : FactsHold σ t.goal ↔ reason.isSolvable = true := by
  have hpossible := hσ.possible hw hc
  have hvars : ∀ f ∈ t.goal, f.var < t.vars.size := fun f hf => hasFact_lt (hw.goal f hf)
  rcases pruneValues_eq_error h with ⟨rfl, hnone⟩ | ⟨rfl, hempty⟩
  · exact iff_of_false (facts?_eq_none hw hpossible hvars hnone) nofun
  · exact iff_of_true ((factsHold_facts? hw hpossible hvars hempty).mp (factsHold_nil _)) rfl

omit htidy in
theorem solvable_iff_of_pruneValues_eq_error {reason : Trivial}
    (h : t.pruneValues = .error reason) : t.Solvable ↔ reason.isSolvable = true := by
  obtain ⟨σ, hσ⟩ := exists_evaluates hr t.initialValue
  constructor
  · rintro ⟨σ, hσ, hholds⟩
    exact (goal_iff_of_pruneValues_eq_error hw hc h hσ).mp hholds
  · exact fun hsolvable =>
      ⟨σ, .init hσ, (goal_iff_of_pruneValues_eq_error hw hc h (.init hσ)).mpr hsolvable⟩

end Bisimulation

/-- Removing values keeps all that can be reached, and a task is replaced by a small one only
if all reachable valuations satisfy its goal, or none. -/
theorem pruneValues_isImage (hcheck : t.check = .ok ()) (hr : t.ResetsToOne)
    (htidy : t.OperatorsAreTidy) (hc : t.IsConsistent) :
    (∀ t', t.pruneValues = .ok t' →
      (∀ σ, t.Reachable σ → ∀ var < t.vars.size, t.pruning.image ⟨var, σ var⟩ ≠ .never) ∧
      t.IsImage t' t.prunedValuation t.pruning.operator? ∧
      ∀ o ∈ t.operators, t.pruning.operator? o = none → ∀ σ τ, t.Reachable σ →
        o.Applicable σ → t.Evaluates (o.apply σ) τ → τ = σ) ∧
    ∀ reason, t.pruneValues = .error reason →
      (∀ σ, t.Reachable σ → (FactsHold σ t.goal ↔ reason.isSolvable = true)) ∧
      (reason.task.Solvable ↔ t.Solvable) := by
  have hw := check_eq_ok_iff.mp hcheck
  refine ⟨fun t' h => ?_, fun reason h => ?_⟩
  · obtain ⟨goal, hgoal, -, rfl⟩ := pruneValues_eq_ok h
    refine ⟨fun σ hσ var hvar himage => ?_, isImage_withoutValues hw hr htidy hc hgoal,
      fun o ho hnone σ τ hσ happ hτ => eq_of_operator?_eq_none hw hr hc hσ ho hnone happ hτ⟩
    exact not_holds_of_image_never hw (hσ.possible hw hc) (f := ⟨var, σ var⟩) hvar himage rfl
  · exact ⟨fun σ hσ => goal_iff_of_pruneValues_eq_error hw hc h hσ, reason.solvable_task_iff.trans
      (solvable_iff_of_pruneValues_eq_error hw hr hc h).symm⟩

/-- A parcel is brought from one place to another one. It cannot be lost, so that it stays dry
and is never found again. -/
def delivering : Task where
  vars := #[⟨3, none, ["at a", "at b", "lost"]⟩, ⟨2, none, ["dry", "wet"]⟩,
    ⟨2, some 0, ["done", "not done"]⟩]
  init := #[0, 0, 1]
  goal := [⟨2, 0⟩]
  operators := [
    ⟨"move", [], [⟨0, some 0, 1, []⟩, ⟨1, some 0, 1, [⟨0, 2⟩]⟩], 1⟩,
    ⟨"find", [], [⟨0, some 2, 0, []⟩], 1⟩]
  rules := [⟨[⟨0, 1⟩], ⟨2, 0⟩⟩]

theorem resetsToOne_delivering : delivering.ResetsToOne where
  initial v hv := by
    match v with
    | 0 | 1 => cases hv
    | 2 => rfl
    | v + 3 => cases hv
  rules := by decide

theorem delivering_pruneValues_isImage :
    delivering.check = .ok () ∧ delivering.ResetsToOne ∧ delivering.OperatorsAreTidy ∧
      delivering.IsConsistent ∧
      delivering.IsImage
        { vars := #[⟨2, none, ["at a", "at b"]⟩, ⟨2, none, ["dry", "wet"]⟩,
            ⟨2, some 0, ["done", "not done"]⟩]
          init := #[0, 0, 1]
          goal := [⟨2, 0⟩]
          operators := [⟨"move", [⟨1, 0⟩], [⟨0, some 0, 1, []⟩], 1⟩]
          rules := [⟨[⟨0, 1⟩], ⟨2, 0⟩⟩] }
        delivering.prunedValuation delivering.pruning.operator? := by
  have hcheck : delivering.check = .ok () := rfl
  have htidy : delivering.OperatorsAreTidy := ⟨by decide, by decide⟩
  have hc : delivering.IsConsistent := fun σ _ o ho _ =>
    Operator.isConsistent_of_nodup ((by decide :
      ∀ o ∈ delivering.operators, (o.effects.map (·.var)).Nodup) o ho)
  exact ⟨hcheck, resetsToOne_delivering, htidy, hc,
    ((pruneValues_isImage hcheck resetsToOne_delivering htidy hc).1 _ (by cbv)).2.1⟩

end Task
end FiniteDomain
end FinitePlanning
