import Mathlib.Order.Basic
import FinitePlanning.FiniteDomain.Trivial
import FinitePlanning.Proofs.FiniteDomain.WellFormed
import FinitePlanning.Proofs.Semantics.FiniteDomain

/-!
The values that rules give to derived variables. Rules that only set variables to zero,
and ask only for zero where other rules of their layer decide, can be applied in any
order with the same result.
-/

namespace FinitePlanning

/-- The ordered set of numbers below a bound. -/
theorem orderedSet_eq_filter_range {l : List Nat} {n : Nat} (h : ∀ a ∈ l, a < n) :
    orderedSet l = (List.range n).filter (· ∈ l) := by
  refine orderedSet_eq_of_pairwise (List.pairwise_lt_range.filter _) fun a => ?_
  simpa using h a

namespace FiniteDomain

variable {rules : List Rule} {σ τ υ : Valuation}

/-- The rules set variables to zero, and ask for zero where a rule decides. -/
structure AreMonotone (rules : List Rule) : Prop where
  effect : ∀ r ∈ rules, r.effect.value = 0
  condition : ∀ r ∈ rules, ∀ f ∈ r.condition, ∀ r' ∈ rules, r'.effect.var = f.var → f.value = 0

/-- Some variables of rules that are not zero in `σ` are zero in `τ`. -/
def Below (rules : List Rule) (σ τ : Valuation) : Prop :=
  ∀ v, σ v = τ v ∨ τ v = 0 ∧ ∃ r ∈ rules, r.effect.var = v

theorem Below.refl (rules : List Rule) (σ : Valuation) : Below rules σ σ := fun _ => .inl rfl

theorem Below.antisymm (h : Below rules σ τ) (h' : Below rules τ σ) : σ = τ := by
  funext v
  rcases h v with h | h
  · exact h
  · rcases h' v with h' | h'
    · exact h'.symm
    · exact h'.1.trans h.1.symm

/-- Nothing changes when the rules are applied. -/
def IsSettled (rules : List Rule) (σ : Valuation) : Prop :=
  ∀ r ∈ rules, FactsHold σ r.condition → r.effect.Holds σ

namespace Settles

theorem isSettled (h : Settles rules σ τ) : IsSettled rules τ := by
  induction h with
  | done h => exact h
  | fire _ _ _ _ ih => exact ih

theorem below_result (hzero : ∀ r ∈ rules, r.effect.value = 0) (h : Settles rules σ τ) :
    Below rules σ τ := by
  induction h with
  | done _ => exact .refl rules _
  | @fire σ τ r hr hc he _ ih =>
      intro v
      by_cases hv : v = r.effect.var
      · refine .inr ⟨?_, r, hr, hv.symm⟩
        rcases ih v with h | h
        · rw [← h, Fact.set, hv, Function.update_self]
          exact hzero r hr
        · exact h.1
      · have ih := ih v
        rwa [Fact.set, Function.update_of_ne hv] at ih

theorem eq_of_not_set (h : Settles rules σ τ) {v : Nat} (hv : ∀ r ∈ rules, r.effect.var ≠ v) :
    τ v = σ v := by
  induction h with
  | done _ => rfl
  | @fire σ τ r hr hc he _ ih =>
      rw [ih, Fact.set, Function.update_of_ne (hv r hr).symm]

/-- What the rules make true is true in every settled valuation. -/
theorem below_of_isSettled (hm : AreMonotone rules) (h : Settles rules σ τ)
    (hυ : IsSettled rules υ) (hbelow : Below rules σ υ) : Below rules τ υ := by
  induction h with
  | done _ => exact hbelow
  | @fire σ τ r hr hc he _ ih =>
      refine ih fun v => ?_
      by_cases hv : v = r.effect.var
      · have hheld : r.effect.Holds υ := by
          refine hυ r hr fun f hf => ?_
          rcases hbelow f.var with h | ⟨hzero, r', hr', hvar⟩
          · exact h.symm.trans (hc f hf)
          · exact hzero.trans (hm.condition r hr f hf r' hr' hvar).symm
        left
        rw [Fact.set, hv, Function.update_self]
        exact Eq.symm hheld
      · rw [Fact.set, Function.update_of_ne hv]
        exact hbelow v

/-- Rules that set variables to zero come to an end. -/
theorem exists_settles (hzero : ∀ r ∈ rules, r.effect.value = 0) (σ : Valuation) :
    ∃ τ, Settles rules σ τ := by
  induction hn : rules.countP (fun r => ¬ r.effect.Holds σ) using Nat.strongRecOn
    generalizing σ with
  | _ n ih =>
      by_cases hdone : ∀ r ∈ rules, FactsHold σ r.condition → r.effect.Holds σ
      · exact ⟨σ, .done hdone⟩
      · push Not at hdone
        obtain ⟨r, hr, hc, he⟩ := hdone
        -- the effect of `r` holds now, and those that held still do
        have himp : ∀ r' ∈ rules, ¬ r'.effect.Holds (r.effect.set σ) → ¬ r'.effect.Holds σ := by
          intro r' hr' hset hheld
          rw [Fact.holds_set, hzero r' hr', hzero r hr] at hset
          split at hset
          · exact hset rfl
          · exact hset hheld
        have hlt : rules.countP (fun r' => ¬ r'.effect.Holds (r.effect.set σ)) < n := by
          rw [← hn]
          refine countP_lt_countP (fun r' hr' h => ?_) hr (decide_eq_true he) ?_
          · exact decide_eq_true (himp r' hr' (of_decide_eq_true h))
          · simp [Fact.holds_set]
        obtain ⟨τ, hτ⟩ := ih _ hlt (r.effect.set σ) rfl
        exact ⟨τ, .fire hr hc he hτ⟩

theorem unique (hm : AreMonotone rules) (h : Settles rules σ τ) (h' : Settles rules σ υ) :
    τ = υ :=
  (h.below_of_isSettled hm h'.isSettled (h'.below_result hm.effect)).antisymm
    (h'.below_of_isSettled hm h.isSettled (h.below_result hm.effect))

end Settles

namespace SettlesAll

variable {layers : List (List Rule)}

theorem unique (hm : ∀ rules ∈ layers, AreMonotone rules) (h : SettlesAll layers σ τ)
    (h' : SettlesAll layers σ υ) : τ = υ := by
  induction h with
  | nil => cases h'; rfl
  | cons h _ ih =>
      cases h' with
      | cons h' next' =>
          rw [List.forall_mem_cons] at hm
          obtain rfl := h.unique hm.1 h'
          exact ih hm.2 next'

theorem exists_settlesAll (hzero : ∀ rules ∈ layers, ∀ r ∈ rules, r.effect.value = 0)
    (σ : Valuation) : ∃ τ, SettlesAll layers σ τ := by
  induction layers generalizing σ with
  | nil => exact ⟨σ, .nil⟩
  | cons rules layers ih =>
      rw [List.forall_mem_cons] at hzero
      obtain ⟨τ, hτ⟩ := Settles.exists_settles hzero.1 σ
      obtain ⟨υ, hυ⟩ := ih hzero.2 τ
      exact ⟨υ, .cons hτ hυ⟩

theorem eq_of_not_set (h : SettlesAll layers σ τ) {v : Nat}
    (hv : ∀ rules ∈ layers, ∀ r ∈ rules, r.effect.var ≠ v) : τ v = σ v := by
  induction h with
  | nil => rfl
  | cons h _ ih =>
      rw [List.forall_mem_cons] at hv
      rw [ih hv.2, h.eq_of_not_set hv.1]

/-- Layers without rules have no influence. -/
theorem filter_iff {layerRules : Nat → List Rule} {p : Nat → Bool} {ls : List Nat}
    (h : ∀ l ∈ ls, p l = false → layerRules l = []) :
    SettlesAll ((ls.filter p).map layerRules) σ τ ↔ SettlesAll (ls.map layerRules) σ τ := by
  induction ls generalizing σ with
  | nil => rfl
  | cons l ls ih =>
      rw [List.forall_mem_cons] at h
      have ih := fun {σ} => @ih σ h.2
      cases hl : p l with
      | true =>
          rw [List.filter_cons_of_pos hl, List.map_cons, List.map_cons]
          constructor
          · rintro (_ | ⟨h, next⟩)
            exact .cons h (ih.mp next)
          · rintro (_ | ⟨h, next⟩)
            exact .cons h (ih.mpr next)
      | false =>
          rw [List.filter_cons_of_neg (by simp [hl]), List.map_cons, h.1 hl, ih]
          constructor
          · exact fun next => .cons (.done nofun) next
          · rintro (_ | ⟨h, next⟩)
            cases h with
            | done _ => exact next
            | fire hr => cases hr

end SettlesAll

namespace Task

variable {t : Task}

theorem mem_rulesOf {layer : Nat} {r : Rule} :
    r ∈ t.rulesOf layer ↔ r ∈ t.rules ∧ t.layerOf? r.effect.var = some layer := by
  simp [rulesOf]

/-- A bound on the layers of the variables. -/
def layerBound (t : Task) : Nat := ((t.vars.toList.filterMap (·.layer)).foldr max 0) + 1

theorem lt_layerBound {layer : Nat} (h : layer ∈ t.vars.toList.filterMap (·.layer)) :
    layer < t.layerBound := by
  rw [layerBound]
  revert h
  generalize t.vars.toList.filterMap (·.layer) = layers
  intro h
  induction layers with
  | nil => cases h
  | cons l layers ih =>
      rw [List.foldr_cons]
      rcases List.mem_cons.mp h with rfl | h
      · omega
      · have := ih h
        omega

theorem mem_layers_of_layerOf? {var layer : Nat} (h : t.layerOf? var = some layer) :
    layer ∈ t.vars.toList.filterMap (·.layer) := by
  obtain ⟨v, hv, hlayer⟩ := Option.bind_eq_some_iff.mp h
  exact List.mem_filterMap.mpr ⟨v, List.mem_of_getElem? (Array.getElem?_toList ▸ hv), hlayer⟩

/-- All layers up to some bound are evaluated one after the other. -/
theorem evaluates_iff {n : Nat} (hn : t.layerBound ≤ n) :
    t.Evaluates σ τ ↔ SettlesAll ((List.range n).map t.rulesOf) (t.reset σ) τ := by
  rw [Evaluates, layers, orderedSet_eq_filter_range fun l hl => Nat.lt_of_lt_of_le (lt_layerBound hl) hn]
  refine SettlesAll.filter_iff fun l _ hl => ?_
  rw [rulesOf, List.filter_eq_nil_iff]
  intro r _ hlayer
  have hmem := mem_layers_of_layerOf? (of_decide_eq_true hlayer)
  simp [hmem] at hl

/-- Derived variables start at one and are set to zero by rules. -/
structure ResetsToOne (t : Task) : Prop where
  initial : ∀ v, t.IsDerived v → t.initialValue v = 1
  rules : ∀ r ∈ t.rules, r.effect.value = 0

theorem areMonotone_rulesOf (hw : t.IsWellFormed) (hr : t.ResetsToOne) (layer : Nat) :
    AreMonotone (t.rulesOf layer) where
  effect r hmem := hr.rules r (mem_rulesOf.mp hmem).1
  condition r hmem f hf r' hmem' hvar := by
    obtain ⟨hrule, hlayer⟩ := mem_rulesOf.mp hmem
    obtain ⟨-, hlayer'⟩ := mem_rulesOf.mp hmem'
    rw [hvar] at hlayer'
    obtain ⟨l, hl, hfits⟩ := (hw.rules r hrule).layer
    obtain rfl := Option.some.inj (hlayer.symm.trans hl)
    have hfits := hfits f hf
    -- the variable is on the same layer, so its value in the condition is not the false one
    have hne : f.value ≠ 1 := fun h => Nat.lt_irrefl _ (hfits.lt _ hlayer' h)
    obtain ⟨v, hv, hlayer⟩ := Option.bind_eq_some_iff.mp hlayer'
    have hrange := (hw.vars v (List.mem_of_getElem? (Array.getElem?_toList ▸ hv))).binary
      (Option.isSome_iff_exists.mpr ⟨_, hlayer⟩)
    have hvalid := hfits.valid
    simp only [hasFact, hv, Option.any_some, decide_eq_true_eq] at hvalid
    omega

theorem reset_of_derived {v : Nat} (h : t.IsDerived v) : t.reset σ v = t.initialValue v := if_pos h

theorem reset_of_not_derived {v : Nat} (h : ¬ t.IsDerived v) : t.reset σ v = σ v := if_neg h

theorem Evaluates.eq_of_not_derived {v : Nat} (h : t.Evaluates σ τ) (hv : ¬ t.IsDerived v) :
    τ v = σ v := by
  rw [← reset_of_not_derived (σ := σ) hv]
  refine SettlesAll.eq_of_not_set h fun rules hrules r hr hvar => hv ?_
  obtain ⟨layer, -, rfl⟩ := List.mem_map.mp hrules
  rw [IsDerived, ← hvar, (mem_rulesOf.mp hr).2]
  rfl

theorem Evaluates.reset_eq (h : t.Evaluates σ τ) : t.reset τ = t.reset σ := by
  funext v
  by_cases hv : t.IsDerived v
  · rw [reset_of_derived hv, reset_of_derived hv]
  · rw [reset_of_not_derived hv, reset_of_not_derived hv, h.eq_of_not_derived hv]

theorem exists_evaluates (hr : t.ResetsToOne) (σ : Valuation) : ∃ τ, t.Evaluates σ τ :=
  SettlesAll.exists_settlesAll (List.forall_mem_map.mpr fun _ _ r hmem =>
    hr.rules r (mem_rulesOf.mp hmem).1) _

theorem Evaluates.unique (hw : t.IsWellFormed) (hr : t.ResetsToOne) (h : t.Evaluates σ τ)
    (h' : t.Evaluates σ υ) : τ = υ :=
  SettlesAll.unique (List.forall_mem_map.mpr fun layer _ => areMonotone_rulesOf hw hr layer) h h'

/-- Evaluating again changes nothing. -/
theorem Evaluates.eq_self (hw : t.IsWellFormed) (hr : t.ResetsToOne) (h : t.Evaluates σ τ)
    (h' : t.Evaluates τ υ) : υ = τ := by
  refine Evaluates.unique hw hr ?_ h
  rwa [Evaluates, ← h.reset_eq]

/-- The valuations that are reached were evaluated. -/
theorem Reachable.exists_evaluates (h : t.Reachable σ) : ∃ υ, t.Evaluates υ σ := by
  cases h with
  | init h => exact ⟨_, h⟩
  | step _ _ _ h => exact ⟨_, h⟩

/-! ### The small tasks that take the place of tasks whose solvability is known -/

variable {goalValue : Nat}

theorem evaluates_constant_iff : (constant goalValue).Evaluates σ τ ↔ τ = σ := by
  have hreset : (constant goalValue).reset σ = σ := by
    funext var
    refine reset_of_not_derived ?_
    cases var <;> simp [IsDerived, layerOf?, constant]
  have hlayers : (constant goalValue).layers = [] := by simp [layers, constant, orderedSet, dropRepeats]
  rw [Evaluates, hreset, hlayers]
  constructor
  · intro h
    cases h
    rfl
  · rintro rfl
    exact .nil

theorem solvable_constant_iff : (constant goalValue).Solvable ↔ goalValue = 0 := by
  constructor
  · rintro ⟨σ, hσ, hgoal⟩
    have hgoal : σ 0 = goalValue := hgoal ⟨0, goalValue⟩ List.mem_cons_self
    cases hσ with
    | init h =>
        rw [evaluates_constant_iff.mp h] at hgoal
        exact hgoal.symm
    | step _ ho => cases ho
  · rintro rfl
    exact ⟨_, .init (evaluates_constant_iff.mpr rfl),
      by simp [FactsHold, constant, Fact.Holds, initialValue]⟩

end Task

theorem Trivial.solvable_task_iff {reason : Trivial} :
    reason.task.Solvable ↔ reason.isSolvable = true := by
  rw [task]
  cases reason.isSolvable
  · exact iff_of_false (fun h => nomatch Task.solvable_constant_iff.mp h) nofun
  · exact iff_of_true (Task.solvable_constant_iff.mpr rfl) rfl

end FiniteDomain
end FinitePlanning
