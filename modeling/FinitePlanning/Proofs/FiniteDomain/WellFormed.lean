import FinitePlanning.FiniteDomain.Check
import FinitePlanning.Proofs.Collections

/-!
What the check of a finite-domain task says. All facts are about values that exist,
operators set the variables that are not derived and rules those that are, and the
conditions of a rule are on its own layer or below.
-/

namespace FinitePlanning
namespace FiniteDomain

section Except

variable {ε : Type} {c : Prop} [Decidable c] {e : ε} {next : Except ε Unit}

theorem bind_eq_ok_iff {x : Except ε Unit} {f : Unit → Except ε Unit} :
    (x >>= f) = .ok () ↔ x = .ok () ∧ f () = .ok () := by
  cases x with
  | error e => exact iff_of_false nofun fun h => nomatch h.1
  | ok u => exact (and_iff_right rfl).symm

theorem throwIf_eq_ok_iff : (if c then throw e else next) = .ok () ↔ ¬ c ∧ next = .ok () := by
  by_cases h : c
  · exact iff_of_false (by rw [if_pos h]; exact nofun) fun hn => hn.1 h
  · rw [if_neg h, and_iff_right h]

theorem throwIf_bind_eq_ok_iff {f : Unit → Except ε Unit} :
    (if c then throw e >>= f else next) = .ok () ↔ ¬ c ∧ next = .ok () := by
  by_cases h : c
  · exact iff_of_false (by rw [if_pos h]; exact nofun) fun hn => hn.1 h
  · rw [if_neg h, and_iff_right h]

theorem pure_eq_ok : (pure () : Except ε Unit) = .ok () := rfl

end Except

structure Variable.IsWellFormed (v : Variable) : Prop where
  range_pos : 0 < v.range
  names : v.names.length = v.range
  binary : v.isDerived = true → v.range = 2

theorem Variable.check_eq_ok_iff {v : Variable} {position : Nat} :
    v.check position = .ok () ↔ v.IsWellFormed := by
  simp only [Variable.check, throwIf_bind_eq_ok_iff, throwIf_eq_ok_iff, pure_eq_ok, and_true,
    ne_eq, not_and, Decidable.not_not]
  exact ⟨fun ⟨hr, hn, hb⟩ => ⟨Nat.pos_of_ne_zero hr, hn, hb⟩,
    fun h => ⟨Nat.ne_of_gt h.range_pos, h.names, h.binary⟩⟩

namespace Task

variable {t : Task}

/-- The condition of a rule is on its layer or below, and what must be false strictly
below. -/
structure ConditionFits (t : Task) (layer : Nat) (f : Fact) : Prop where
  valid : t.hasFact f = true
  le : ∀ varLayer, t.layerOf? f.var = some varLayer → varLayer ≤ layer
  lt : ∀ varLayer, t.layerOf? f.var = some varLayer → f.value = derivedFalse → varLayer < layer

structure OperatorFits (t : Task) (o : Operator) : Prop where
  prevail : ∀ f ∈ o.prevail, t.hasFact f = true
  condition : ∀ e ∈ o.effects, ∀ f ∈ e.condition, t.hasFact f = true
  after : ∀ e ∈ o.effects, t.hasFact e.afterFact = true
  before : ∀ e ∈ o.effects, ∀ f ∈ e.beforeFact?, t.hasFact f = true
  basic : ∀ e ∈ o.effects, t.layerOf? e.var = none

structure RuleFits (t : Task) (r : Rule) : Prop where
  valid : t.hasFact r.effect = true
  layer : ∃ layer, t.layerOf? r.effect.var = some layer ∧
    ∀ f ∈ r.condition, t.ConditionFits layer f

structure IsWellFormed (t : Task) : Prop where
  vars : ∀ v ∈ t.vars.toList, v.IsWellFormed
  init_size : t.init.size = t.vars.size
  init : ∀ (var value : Nat), t.init[var]? = some value → t.hasFact ⟨var, value⟩ = true
  mutexes : ∀ m ∈ t.mutexes, ∀ f ∈ m.facts, t.hasFact f = true
  goal : ∀ f ∈ t.goal, t.hasFact f = true
  operators : ∀ o ∈ t.operators, t.OperatorFits o
  rules : ∀ r ∈ t.rules, t.RuleFits r

theorem checkFact_eq_ok_iff {f : Fact} : t.checkFact f = .ok () ↔ t.hasFact f = true := by
  rw [checkFact]
  cases t.hasFact f with
  | true => exact iff_of_true rfl rfl
  | false => exact iff_of_false nofun nofun

theorem checkRuleCondition_eq_ok_iff {layer : Nat} {f : Fact} :
    t.checkRuleCondition layer f = .ok () ↔ t.ConditionFits layer f := by
  rw [checkRuleCondition, bind_eq_ok_iff, checkFact_eq_ok_iff]
  cases hl : t.layerOf? f.var with
  | none => exact ⟨fun h => ⟨h.1, by simp [hl], by simp [hl]⟩, fun h => ⟨h.valid, rfl⟩⟩
  | some varLayer =>
      simp only [throwIf_eq_ok_iff, pure_eq_ok, and_true]
      constructor
      · rintro ⟨hvalid, hle⟩
        refine ⟨hvalid, fun l hvar => ?_, fun l hvar hfalse => ?_⟩
        · obtain rfl := Option.some.inj (hl.symm.trans hvar)
          split at hle <;> omega
        · obtain rfl := Option.some.inj (hl.symm.trans hvar)
          rw [if_pos hfalse] at hle
          omega
      · intro h
        have hle := h.le varLayer hl
        refine ⟨h.valid, ?_⟩
        split
        next hfalse => exact Nat.not_lt.mpr (h.lt varLayer hl hfalse)
        next => exact Nat.not_lt.mpr hle

theorem checkOperator_eq_ok_iff {o : Operator} :
    t.checkOperator o = .ok () ↔ t.OperatorFits o := by
  have hbefore : ∀ e : Effect,
      e.beforeFact?.forM t.checkFact = .ok () ↔ ∀ f ∈ e.beforeFact?, t.hasFact f = true := by
    intro e
    cases e.beforeFact? with
    | none => exact iff_of_true rfl nofun
    | some f => simp [Option.forM, checkFact_eq_ok_iff]
  have hlayer : ∀ e : Effect, ¬ (t.layerOf? e.var).isSome = true ↔ t.layerOf? e.var = none :=
    fun e => by simp
  simp only [checkOperator, bind_eq_ok_iff, forM_eq_ok_iff, checkFact_eq_ok_iff, hbefore,
    throwIf_eq_ok_iff, pure_eq_ok, and_true, hlayer, List.mem_append, List.mem_flatMap]
  constructor
  · rintro ⟨hfacts, heffects⟩
    exact ⟨fun f hf => hfacts f (.inl hf), fun e he f hf => hfacts f (.inr ⟨e, he, hf⟩),
      fun e he => (heffects e he).1, fun e he => (heffects e he).2.1,
      fun e he => (heffects e he).2.2⟩
  · intro h
    refine ⟨fun f hf => ?_, fun e he => ⟨h.after e he, h.before e he, h.basic e he⟩⟩
    rcases hf with hf | ⟨e, he, hf⟩
    · exact h.prevail f hf
    · exact h.condition e he f hf

theorem checkRule_eq_ok_iff {r : Rule} : t.checkRule r = .ok () ↔ t.RuleFits r := by
  rw [checkRule, bind_eq_ok_iff, checkFact_eq_ok_iff]
  cases hl : t.layerOf? r.effect.var with
  | none =>
      refine iff_of_false (fun h => nomatch h.2) fun h => ?_
      obtain ⟨layer, hvar, -⟩ := h.layer
      cases hl.symm.trans hvar
  | some layer =>
      simp only [forM_eq_ok_iff, checkRuleCondition_eq_ok_iff]
      exact ⟨fun h => ⟨h.1, layer, hl, h.2⟩, fun ⟨hv, l, hvar, h⟩ =>
        ⟨hv, Option.some.inj (hl.symm.trans hvar) ▸ h⟩⟩

/-- The check of the variables, each with its number, is that each of them is well formed. -/
theorem checkVars_eq_ok_iff : (∀ p ∈ t.vars.toList.zipIdx, p.1.check p.2 = .ok ()) ↔
    ∀ v ∈ t.vars.toList, v.IsWellFormed := by
  constructor
  · intro h v hv
    obtain ⟨i, hi⟩ := List.mem_iff_getElem?.mp hv
    exact Variable.check_eq_ok_iff.mp (h (v, i) (List.mem_zipIdx_iff_getElem?.mpr hi))
  · rintro h ⟨v, i⟩ hv
    exact Variable.check_eq_ok_iff.mpr (h v (List.fst_mem_of_mem_zipIdx hv))

theorem forall_init_iff : (∀ f ∈ t.init.toList.zipIdx.map fun (value, var) => Fact.mk var value,
    t.hasFact f = true) ↔
    ∀ (var value : Nat), t.init[var]? = some value → t.hasFact ⟨var, value⟩ = true := by
  simp only [List.forall_mem_map, Prod.forall, List.mem_zipIdx_iff_getElem?,
    Array.getElem?_toList]
  exact forall_comm

/-- A task passes the check if and only if it is well formed. -/
theorem check_eq_ok_iff : t.check = .ok () ↔ t.IsWellFormed := by
  simp only [check, bind_eq_ok_iff, checkVars_eq_ok_iff, throwIf_bind_eq_ok_iff, forM_eq_ok_iff,
    checkFact_eq_ok_iff, forall_init_iff, checkOperator_eq_ok_iff, checkRule_eq_ok_iff, List.mem_append,
    List.mem_flatMap, ne_eq, Decidable.not_not]
  constructor
  · rintro ⟨hv, hsize, hi, hfacts, ho, hr⟩
    exact ⟨hv, hsize, hi, fun m hm f hf => hfacts f (.inl ⟨m, hm, hf⟩),
      fun f hf => hfacts f (.inr hf), ho, hr⟩
  · intro h
    refine ⟨h.vars, h.init_size, h.init, fun f hf => ?_, h.operators, h.rules⟩
    rcases hf with ⟨m, hm, hf⟩ | hf
    · exact h.mutexes m hm f hf
    · exact h.goal f hf

end Task

end FiniteDomain
end FinitePlanning
