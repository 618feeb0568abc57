import Mathlib.Data.List.Forall2
import FinitePlanning.Ground.Instance
import FinitePlanning.Proofs.Collections
import FinitePlanning.Proofs.Condition.Traversal
import FinitePlanning.Proofs.Semantics.Derivation

/-!
The meaning of conditions, given the objects of each type and the values of the
free variables. A condition in normal form is a conjunction of literals, and is
true if all of them are.
-/

namespace FinitePlanning

/-- One object of its type for each parameter. -/
def TypedBy (objects : String → List String) (ps : List Parameter) (os : List String) : Prop :=
  List.Forall₂ (fun p o => o ∈ objects p.type) ps os

namespace Condition

open Grounding (valuesOf)

mutual

def Holds (objects : String → List String) (s : Interpretation) :
    Renaming → Condition → Prop
  | _, .true => True
  | _, .false => False
  | values, .literal l => (l.rename values).Holds s
  | values, .and parts => PartsHold objects s values parts
  | values, .or parts => SomePartHolds objects s values parts
  | values, .forall ps body =>
    ∀ os, TypedBy objects ps os → Holds objects s (valuesOf ps os ++ values) body
  | values, .exists ps body =>
    ∃ os, TypedBy objects ps os ∧ Holds objects s (valuesOf ps os ++ values) body

def PartsHold (objects : String → List String) (s : Interpretation) :
    Renaming → List Condition → Prop
  | _, [] => True
  | values, c :: rest => Holds objects s values c ∧ PartsHold objects s values rest

def SomePartHolds (objects : String → List String) (s : Interpretation) :
    Renaming → List Condition → Prop
  | _, [] => False
  | values, c :: rest => Holds objects s values c ∨ SomePartHolds objects s values rest

end

variable {objects : String → List String} {s : Interpretation} {values : Renaming}

theorem partsHold_literals (ls : List Literal) :
    PartsHold objects s values (ls.map .literal) ↔ AllHold s (ls.map (·.rename values)) := by
  induction ls with
  | nil => simp [PartsHold]
  | cons l ls ih => simp [PartsHold, Holds, ih]

theorem mapM_literal? {cs : List Condition} {ls : List Literal} :
    cs.mapM literal? = some ls ↔ cs = ls.map .literal := by
  constructor
  · intro h
    have hmatch := forall₂_of_mapM_some h
    clear h
    induction hmatch with
    | nil => rfl
    | @cons c l cs ls hl _ ih =>
        cases c with
        | literal m => cases hl; rw [List.map_cons, ih]
        | true | false | and _ | or _ | «forall» _ _ | «exists» _ _ => cases hl
  · rintro rfl
    induction ls with
    | nil => rfl
    | cons l ls ih => simp [List.mapM_cons, literal?, ih]

theorem conjuncts_of_conjunction {c : Condition} {ls : List Literal}
    (h : c.conjunction? = some ls) : c.conjuncts = ls.map .literal := mapM_literal?.mp h

theorem conjunction?_and (ls : List Literal) :
    (Condition.and (ls.map .literal)).conjunction? = some ls := mapM_literal?.mpr rfl

/-- The forms of a conjunction of literals. -/
theorem conjunction?_eq_some {c : Condition} {ls : List Literal}
    (h : c.conjunction? = some ls) :
    c = .true ∧ ls = [] ∨ (∃ l, c = .literal l ∧ ls = [l]) ∨ c = .and (ls.map .literal) := by
  cases c with
  | true => exact .inl ⟨rfl, by cases h; rfl⟩
  | and ps => exact .inr (.inr (congrArg _ (mapM_literal?.mp h)))
  | literal l => exact .inr (.inl ⟨l, rfl, by cases h; rfl⟩)
  | false | or _ | «forall» _ _ | «exists» _ _ => cases h

theorem literals_of_conjunction {c : Condition} {ls : List Literal}
    (h : c.conjunction? = some ls) : c.literals = ls := by
  rcases conjunction?_eq_some h with ⟨rfl, rfl⟩ | ⟨l, rfl, rfl⟩ | rfl
  · exact literals_true
  · exact literals_literal l
  · simp [List.flatMap_map]

theorem holds_iff_of_conjunction {c : Condition} {ls : List Literal}
    (h : c.conjunction? = some ls) :
    c.Holds objects s values ↔ AllHold s (ls.map (·.rename values)) := by
  rcases conjunction?_eq_some h with ⟨rfl, rfl⟩ | ⟨l, rfl, rfl⟩ | rfl
  · simp [Holds]
  · simp [Holds]
  · rw [Holds, partsHold_literals]

end Condition
end FinitePlanning
