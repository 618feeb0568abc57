import Mathlib.Logic.Function.Basic
import FinitePlanning.FiniteDomain.Check

/-!
Runs of finite-domain tasks. An operator that is applicable sets the variables of
the effects whose conditions hold in the old state. Then the derived variables
are reset and the rules are applied layer by layer, in each layer until nothing
changes any more.
-/

namespace FinitePlanning
namespace FiniteDomain

/-- The value of each variable. -/
abbrev Valuation := Nat → Nat

namespace Fact

def Holds (σ : Valuation) (f : Fact) : Prop := σ f.var = f.value

instance (σ : Valuation) (f : Fact) : Decidable (f.Holds σ) :=
  inferInstanceAs (Decidable (_ = _))

/-- A variable has one value. -/
theorem Holds.eq {σ : Valuation} {f g : Fact} (hf : f.Holds σ) (hg : g.Holds σ)
    (hvar : f.var = g.var) : f = g := by
  have hvalue : f.value = g.value := by rw [← hf, ← hg, hvar]
  cases f
  cases g
  obtain rfl : _ = _ := hvar
  obtain rfl : _ = _ := hvalue
  rfl

end Fact

/-- All facts of a conjunction hold. -/
def FactsHold (σ : Valuation) (fs : List Fact) : Prop := ∀ f ∈ fs, f.Holds σ

instance (σ : Valuation) (fs : List Fact) : Decidable (FactsHold σ fs) :=
  inferInstanceAs (Decidable (∀ f ∈ fs, f.Holds σ))

@[simp] theorem factsHold_nil (σ : Valuation) : FactsHold σ [] := nofun

@[simp] theorem factsHold_cons (σ : Valuation) (f : Fact) (fs : List Fact) :
    FactsHold σ (f :: fs) ↔ f.Holds σ ∧ FactsHold σ fs := by
  simp [FactsHold]

@[simp] theorem factsHold_append (σ : Valuation) (fs gs : List Fact) :
    FactsHold σ (fs ++ gs) ↔ FactsHold σ fs ∧ FactsHold σ gs := by
  simp only [FactsHold, List.mem_append]
  exact ⟨fun h => ⟨fun f hf => h f (.inl hf), fun f hf => h f (.inr hf)⟩,
    fun h f hf => hf.elim (h.1 f) (h.2 f)⟩

/-- The valuation that gives the variable of a fact its value. -/
def Fact.set (f : Fact) (σ : Valuation) : Valuation := Function.update σ f.var f.value

theorem Fact.holds_set {σ : Valuation} {f g : Fact} :
    f.Holds (g.set σ) ↔ if f.var = g.var then f.value = g.value else f.Holds σ := by
  by_cases h : f.var = g.var
  · simp [Holds, set, h, eq_comm]
  · simp [Holds, set, h]

theorem Fact.holds_set_self {σ : Valuation} {f : Fact} : f.Holds (f.set σ) := by
  rw [Holds, set, Function.update_self]

theorem Fact.set_of_holds {σ : Valuation} {f : Fact} (h : f.Holds σ) : f.set σ = σ := by
  rw [Holds] at h
  rw [set, ← h, Function.update_eq_self]

namespace Operator

variable (o : Operator) (σ : Valuation)

def Applicable : Prop := FactsHold σ o.preconditions

instance : Decidable (o.Applicable σ) := inferInstanceAs (Decidable (FactsHold _ _))

/-- Performs an effect on `τ` if its condition holds in `σ`. -/
def perform (τ : Valuation) (e : Effect) : Valuation :=
  if FactsHold σ e.condition then e.afterFact.set τ else τ

/-- The values after the operator, derived variables being left as they are. -/
def apply : Valuation := o.effects.foldl (perform σ) σ

end Operator

/-- Rules are applied until none changes anything. -/
inductive Settles (rules : List Rule) : Valuation → Valuation → Prop where
  | done {σ : Valuation}
      (h : ∀ r ∈ rules, FactsHold σ r.condition → r.effect.Holds σ) : Settles rules σ σ
  | fire {σ τ : Valuation} {r : Rule} (h : r ∈ rules) (hc : FactsHold σ r.condition)
      (he : ¬ r.effect.Holds σ) (next : Settles rules (r.effect.set σ) τ) :
      Settles rules σ τ

/-- Lists of rules are settled one after the other. -/
inductive SettlesAll : List (List Rule) → Valuation → Valuation → Prop where
  | nil {σ : Valuation} : SettlesAll [] σ σ
  | cons {rules : List Rule} {rest : List (List Rule)} {σ τ υ : Valuation}
      (h : Settles rules σ τ) (next : SettlesAll rest τ υ) : SettlesAll (rules :: rest) σ υ

namespace Task

variable (t : Task)

def IsDerived (var : Nat) : Prop := (t.layerOf? var).isSome

instance (var : Nat) : Decidable (t.IsDerived var) := inferInstanceAs (Decidable (_ = true))

def initialValue (var : Nat) : Nat := t.init.getD var 0

/-- Gives the derived variables their initial values. -/
def reset (σ : Valuation) : Valuation := fun var =>
  if t.IsDerived var then t.initialValue var else σ var

/-- The layers of derived variables, in order. -/
def layers : List Nat := orderedSet (t.vars.toList.filterMap (·.layer))

def rulesOf (layer : Nat) : List Rule :=
  t.rules.filter fun r => t.layerOf? r.effect.var = some layer

/-- The rules may turn `σ` into `τ`. -/
def Evaluates (σ τ : Valuation) : Prop :=
  SettlesAll (t.layers.map t.rulesOf) (t.reset σ) τ

inductive Reachable : Valuation → Prop where
  | init {σ : Valuation} (h : t.Evaluates t.initialValue σ) : Reachable σ
  | step {σ τ : Valuation} {o : Operator} (hσ : Reachable σ) (ho : o ∈ t.operators)
      (happ : o.Applicable σ) (h : t.Evaluates (o.apply σ) τ) : Reachable τ

def Solvable : Prop := ∃ σ, t.Reachable σ ∧ FactsHold σ t.goal

/-!
### Images of runs

The runs of a task may be the images of the runs of another one. The image of a valuation determines
which operators are applicable and where they lead to, and operators without a counterpart do not
change it.
-/

section Image

structure IsImage (t t' : Task) (image : Valuation → Valuation)
    (operator? : Operator → Option Operator) : Prop where
  operators : t'.operators = t.operators.filterMap operator?
  name_cost : ∀ o o', operator? o = some o' → o'.name = o.name ∧ o'.cost = o.cost
  initial : ∀ σ', t'.Evaluates t'.initialValue σ' ↔
    ∃ σ, t.Evaluates t.initialValue σ ∧ image σ = σ'
  applicable : ∀ σ, t.Reachable σ → ∀ o ∈ t.operators, ∀ o', operator? o = some o' →
    (o'.Applicable (image σ) ↔ o.Applicable σ)
  step : ∀ σ, t.Reachable σ → ∀ o ∈ t.operators, o.Applicable σ → ∀ o', operator? o = some o' →
    ∀ τ', t'.Evaluates (o'.apply (image σ)) τ' ↔ ∃ τ, t.Evaluates (o.apply σ) τ ∧ image τ = τ'
  dropped : ∀ σ, t.Reachable σ → ∀ o ∈ t.operators, operator? o = none → o.Applicable σ →
    ∀ τ, t.Evaluates (o.apply σ) τ → image τ = image σ
  goal : ∀ σ, t.Reachable σ → (FactsHold (image σ) t'.goal ↔ FactsHold σ t.goal)

namespace IsImage

variable {t t' : Task} {image : Valuation → Valuation} {operator? : Operator → Option Operator}
  (h : t.IsImage t' image operator?)
include h

theorem reachable_image {σ : Valuation} (hσ : t.Reachable σ) : t'.Reachable (image σ) := by
  induction hσ with
  | init hσ => exact .init ((h.initial _).mpr ⟨_, hσ, rfl⟩)
  | @step σ τ o hσ ho happ hτ ih =>
      cases ho' : operator? o with
      | none =>
          rw [h.dropped σ hσ o ho ho' happ τ hτ]
          exact ih
      | some o' =>
          have hmem : o' ∈ t'.operators := h.operators ▸ List.mem_filterMap.mpr ⟨o, ho, ho'⟩
          exact .step ih hmem ((h.applicable σ hσ o ho o' ho').mpr happ)
            ((h.step σ hσ o ho happ o' ho' _).mpr ⟨τ, hτ, rfl⟩)

theorem exists_reachable {σ' : Valuation} (hσ' : t'.Reachable σ') :
    ∃ σ, t.Reachable σ ∧ image σ = σ' := by
  induction hσ' with
  | init hσ' =>
      obtain ⟨σ, hσ, rfl⟩ := (h.initial _).mp hσ'
      exact ⟨σ, .init hσ, rfl⟩
  | @step _ τ' o' _ ho' happ hτ' ih =>
      obtain ⟨σ, hσ, rfl⟩ := ih
      obtain ⟨o, ho, hmatch⟩ := List.mem_filterMap.mp (h.operators ▸ ho')
      have happ := (h.applicable σ hσ o ho o' hmatch).mp happ
      obtain ⟨τ, hτ, rfl⟩ := (h.step σ hσ o ho happ o' hmatch _).mp hτ'
      exact ⟨τ, .step hσ ho happ hτ, rfl⟩

theorem solvable_iff : t'.Solvable ↔ t.Solvable := by
  constructor
  · rintro ⟨_, hσ', hgoal⟩
    obtain ⟨σ, hσ, rfl⟩ := h.exists_reachable hσ'
    exact ⟨σ, hσ, (h.goal σ hσ).mp hgoal⟩
  · rintro ⟨σ, hσ, hgoal⟩
    exact ⟨image σ, h.reachable_image hσ, (h.goal σ hσ).mpr hgoal⟩

end IsImage
end Image
end Task
end FiniteDomain
end FinitePlanning
