import FinitePlanning.Proofs.Condition.Scope
import FinitePlanning.Proofs.Semantics.Values

/-!
The truth value of conditions. It depends only on the values of the variables in scope and on the
atoms that occur, negation inverts it, and simplification of a junction keeps it.
-/

namespace FinitePlanning
namespace Condition

open Grounding (valuesOf)

variable {objects : String → List String} {s s' : Interpretation} {values values' : Renaming}
  {reading : Literal → Prop} {c : Condition} {cs : List Condition} {ps qs : List Parameter}
  {body : Condition}

@[simp] theorem holds_true : Condition.true.Holds objects s values := trivial

@[simp] theorem not_holds_false : ¬ Condition.false.Holds objects s values := id

@[simp] theorem holds_literal (l : Literal) :
    (Condition.literal l).Holds objects s values ↔ (l.rename values).Holds s := Iff.rfl

@[simp] theorem holds_and :
    (Condition.and cs).Holds objects s values ↔ ∀ c ∈ cs, c.Holds objects s values := by
  rw [Holds]
  induction cs with
  | nil => simp [PartsHold]
  | cons c cs ih => rw [PartsHold, ih, List.forall_mem_cons]

@[simp] theorem holds_or :
    (Condition.or cs).Holds objects s values ↔ ∃ c ∈ cs, c.Holds objects s values := by
  rw [Holds]
  induction cs with
  | nil => simp [SomePartHolds]
  | cons c cs ih => rw [SomePartHolds, ih, List.exists_mem_cons_iff]

@[simp] theorem holds_forall : (Condition.forall ps body).Holds objects s values ↔
    ∀ os, TypedBy objects ps os → body.Holds objects s (valuesOf ps os ++ values) := by
  rw [Holds]

@[simp] theorem holds_exists : (Condition.exists ps body).Holds objects s values ↔
    ∃ os, TypedBy objects ps os ∧ body.Holds objects s (valuesOf ps os ++ values) := by
  rw [Holds]

theorem typedBy_nil {os : List String} : TypedBy objects [] os ↔ os = [] := by
  rw [TypedBy, List.forall₂_nil_left_iff]

theorem valuesOf_append {os os' : List String} (h : ps.length = os.length) :
    valuesOf (ps ++ qs) (os ++ os') = valuesOf qs os' ++ valuesOf ps os := by
  rw [valuesOf, valuesOf, valuesOf, List.map_append, List.zip_append (by simpa using h),
    List.reverse_append]

theorem typedBy_append {os : List String} : TypedBy objects (ps ++ qs) os ↔
    ∃ os₁ os₂, TypedBy objects ps os₁ ∧ TypedBy objects qs os₂ ∧ os = os₁ ++ os₂ := by
  constructor
  · intro h
    exact ⟨_, _, (List.forall₂_take_append os ps qs h.flip).flip,
      (List.forall₂_drop_append os ps qs h.flip).flip, (List.take_append_drop ps.length os).symm⟩
  · rintro ⟨os₁, os₂, h₁, h₂, rfl⟩
    exact List.rel_append h₁ h₂

/-! ### Other readings of literals -/

/-- The truth value of a condition whose literals are read in some other way, for example positive
ones and negative ones in different interpretations. -/
inductive HoldsWith (objects : String → List String) (reading : Literal → Prop) :
    Renaming → Condition → Prop where
  | true {values : Renaming} : HoldsWith objects reading values .true
  | literal {values : Renaming} {l : Literal} (h : reading (l.rename values)) :
      HoldsWith objects reading values (.literal l)
  | and {values : Renaming} {cs : List Condition}
      (h : ∀ c ∈ cs, HoldsWith objects reading values c) : HoldsWith objects reading values (.and cs)
  | or {values : Renaming} {cs : List Condition} {c : Condition} (hc : c ∈ cs)
      (h : HoldsWith objects reading values c) : HoldsWith objects reading values (.or cs)
  | «forall» {values : Renaming} {ps : List Parameter} {body : Condition}
      (h : ∀ os, TypedBy objects ps os →
        HoldsWith objects reading (valuesOf ps os ++ values) body) :
      HoldsWith objects reading values (.forall ps body)
  | «exists» {values : Renaming} {ps : List Parameter} {body : Condition} {os : List String}
      (hos : TypedBy objects ps os)
      (h : HoldsWith objects reading (valuesOf ps os ++ values) body) :
      HoldsWith objects reading values (.exists ps body)

@[simp] theorem holdsWith_true : Condition.true.HoldsWith objects reading values := .true

@[simp] theorem not_holdsWith_false : ¬ Condition.false.HoldsWith objects reading values := nofun

@[simp] theorem holdsWith_literal (l : Literal) :
    (Condition.literal l).HoldsWith objects reading values ↔ reading (l.rename values) :=
  ⟨fun | .literal h => h, .literal⟩

@[simp] theorem holdsWith_and :
    (Condition.and cs).HoldsWith objects reading values ↔
      ∀ c ∈ cs, c.HoldsWith objects reading values :=
  ⟨fun | .and h => h, .and⟩

@[simp] theorem holdsWith_or :
    (Condition.or cs).HoldsWith objects reading values ↔
      ∃ c ∈ cs, c.HoldsWith objects reading values :=
  ⟨fun | .or hc h => ⟨_, hc, h⟩, fun ⟨_, hc, h⟩ => .or hc h⟩

@[simp] theorem holdsWith_forall : (Condition.forall ps body).HoldsWith objects reading values ↔
    ∀ os, TypedBy objects ps os → body.HoldsWith objects reading (valuesOf ps os ++ values) :=
  ⟨fun | .forall h => h, .forall⟩

@[simp] theorem holdsWith_exists : (Condition.exists ps body).HoldsWith objects reading values ↔
    ∃ os, TypedBy objects ps os ∧ body.HoldsWith objects reading (valuesOf ps os ++ values) :=
  ⟨fun | .exists hos h => ⟨_, hos, h⟩, fun ⟨_, hos, h⟩ => .exists hos h⟩

/-- A conjunction of literals is true if all of them are. -/
theorem holdsWith_iff_of_conjunction (h : c.conjunction? = some c.literals) :
    c.HoldsWith objects reading values ↔ ∀ l ∈ c.literals, reading (l.rename values) := by
  rcases conjunction?_eq_some h with ⟨rfl, hl⟩ | ⟨l, rfl, hl⟩ | hc
  · simp
  · simp
  · rw [hc]
    simp [List.flatMap_map]

theorem holds_iff_holdsWith :
    c.Holds objects s values ↔ c.HoldsWith objects (Literal.Holds s) values := by
  induction c generalizing values with
  | true | false | literal _ => simp
  | and parts ih =>
      rw [holds_and, holdsWith_and]
      exact forall₂_congr fun c hc => ih c hc
  | or parts ih =>
      rw [holds_or, holdsWith_or]
      exact exists_congr fun c => and_congr_right fun hc => ih c hc
  | «forall» ps body ih => simp only [holds_forall, holdsWith_forall, ih]
  | «exists» ps body ih => simp only [holds_exists, holdsWith_exists, ih]

/-! ### Negation -/

theorem holds_negate (c : Condition) :
    c.negate.Holds objects s values ↔ ¬ c.Holds objects s values := by
  induction c generalizing values with
  | true => simp
  | false => simp
  | literal l =>
      rw [negate_literal, holds_literal, holds_literal]
      exact Literal.holds_negate s (l.rename values)
  | and parts ih =>
      simp only [negate_and, holds_or, holds_and, List.mem_map, exists_exists_and_eq_and]
      push Not
      exact exists_congr fun c => and_congr_right fun hc => ih c hc
  | or parts ih =>
      simp only [negate_or, holds_or, holds_and, List.forall_mem_map]
      push Not
      exact forall₂_congr fun c hc => ih c hc
  | «forall» ps body ih =>
      simp only [negate_forall, holds_exists, holds_forall, ih]
      push Not
      rfl
  | «exists» ps body ih =>
      simp only [negate_exists, holds_exists, holds_forall, ih]
      push Not
      rfl

/-! ### Agreement -/

theorem apply_append_congr {os : List String} (hos : TypedBy objects ps os) {x : String}
    (h : x ∉ ps.map (·.name) → values.apply x = values'.apply x) :
    (valuesOf ps os ++ values : Renaming).apply x =
      (valuesOf ps os ++ values' : Renaming).apply x := by
  by_cases hmem : x ∈ (valuesOf ps os).map (·.1)
  · rw [Renaming.apply_append_of_mem hmem, Renaming.apply_append_of_mem hmem]
  · rw [Renaming.apply_append_of_not_mem hmem, Renaming.apply_append_of_not_mem hmem]
    exact h fun hp => hmem ((mem_keys_valuesOf_iff hos.length_eq).mpr hp)

/-- Only the values of the free names matter. -/
theorem holdsWith_congr (h : ∀ x, c.IsFree x → values.apply x = values'.apply x) :
    c.HoldsWith objects reading values ↔ c.HoldsWith objects reading values' := by
  induction c generalizing values values' with
  | true | false => simp
  | literal l =>
      rw [holdsWith_literal, holdsWith_literal, Literal.rename_eq fun x hx => h x (.literal hx)]
  | and parts ih =>
      rw [holdsWith_and, holdsWith_and]
      exact forall₂_congr fun c hc => ih c hc fun x hx => h x (.and hc hx)
  | or parts ih =>
      rw [holdsWith_or, holdsWith_or]
      exact exists_congr fun c => and_congr_right fun hc => ih c hc fun x hx => h x (.or hc hx)
  | «forall» ps body ih =>
      rw [holdsWith_forall, holdsWith_forall]
      exact forall₂_congr fun os hos => ih fun x hx =>
        apply_append_congr hos fun hp => h x (.forall hp hx)
  | «exists» ps body ih =>
      rw [holdsWith_exists, holdsWith_exists]
      exact exists_congr fun os => and_congr_right fun hos => ih fun x hx =>
        apply_append_congr hos fun hp => h x (.exists hp hx)

theorem fixesObjects_append (hps : ∀ p ∈ ps, isVariable p.name = Bool.true)
    (h : FixesObjects values.apply) (os : List String) :
    FixesObjects (valuesOf ps os ++ values : Renaming).apply := by
  intro x hx
  refine (Renaming.apply_append_of_not_mem fun hmem => ?_).trans (h x hx)
  obtain ⟨p, hp, rfl⟩ := List.mem_map.mp (Grounding.mem_keys_valuesOf hmem)
  rw [hps p hp] at hx
  cases hx

/-- Only the values of the variables in scope matter. -/
theorem IsScoped.holds_congr {t : Task} {k : Fragment} {vars : List String}
    (h : c.IsScoped t k vars) (hfix : FixesObjects values.apply)
    (hfix' : FixesObjects values'.apply) (hagree : ∀ x ∈ vars, values.apply x = values'.apply x) :
    c.Holds objects s values ↔ c.Holds objects s values' := by
  rw [holds_iff_holdsWith, holds_iff_holdsWith]
  refine holdsWith_congr fun x hx => ?_
  cases hv : isVariable x with
  | true => exact hagree x ((isScoped_iff.mp h).2.2 x hx hv)
  | false => rw [hfix x hv, hfix' x hv]

/-- Only the atoms of predicates that occur matter. -/
theorem holds_congr_interpretation
    (h : ∀ l ∈ c.literals, ∀ a : Atom, a.predicate = l.atom.predicate → (a ∈ s ↔ a ∈ s')) :
    c.Holds objects s values ↔ c.Holds objects s' values := by
  induction c generalizing values with
  | true => rfl
  | false => rfl
  | literal l =>
      rw [holds_literal, holds_literal]
      exact Literal.holds_congr (h l (by rw [literals_literal]; exact List.mem_cons_self) _ rfl)
  | and parts ih =>
      rw [literals_and] at h
      rw [holds_and, holds_and]
      exact forall₂_congr fun c hc => ih c hc fun l hl => h l (List.mem_flatMap.mpr ⟨c, hc, hl⟩)
  | or parts ih =>
      rw [literals_or] at h
      rw [holds_or, holds_or]
      exact exists_congr fun c => and_congr_right fun hc =>
        ih c hc fun l hl => h l (List.mem_flatMap.mpr ⟨c, hc, hl⟩)
  | «forall» ps body ih =>
      rw [literals_forall] at h
      rw [holds_forall, holds_forall]
      exact forall₂_congr fun os _ => ih h
  | «exists» ps body ih =>
      rw [literals_exists] at h
      rw [holds_exists, holds_exists]
      exact exists_congr fun os => and_congr_right fun _ => ih h

/-! ### Simplification -/

theorem holdsWith_conjunctionParts :
    (∀ d ∈ c.conjunctionParts, d.HoldsWith objects reading values) ↔
      c.HoldsWith objects reading values := by
  cases c with
  | true => exact iff_of_true (List.forall_mem_nil _) holdsWith_true
  | and parts => exact holdsWith_and.symm
  | false | literal _ | or _ | «forall» _ _ | «exists» _ _ => exact List.forall_mem_singleton

theorem holdsWith_disjunctionParts :
    (∃ d ∈ c.disjunctionParts, d.HoldsWith objects reading values) ↔
      c.HoldsWith objects reading values := by
  cases c with
  | or parts => exact holdsWith_or.symm
  | true | false | literal _ | and _ | «forall» _ _ | «exists» _ _ => simp [disjunctionParts]

theorem holdsWith_simplifyNode_and :
    (simplifyNode (.and cs)).HoldsWith objects reading values ↔
      ∀ c ∈ cs, c.HoldsWith objects reading values := by
  have hparts : (∀ d ∈ cs.flatMap conjunctionParts, d.HoldsWith objects reading values) ↔
      ∀ c ∈ cs, c.HoldsWith objects reading values := by
    simp only [List.mem_flatMap, forall_exists_index, and_imp]
    rw [forall_comm]
    exact ⟨fun h c hc => holdsWith_conjunctionParts.mp fun d hd => h c d hc hd,
      fun h c d hc hd => holdsWith_conjunctionParts.mpr (h c hc) d hd⟩
  rw [simplifyNode, ← hparts]
  split
  next hbottom =>
    obtain ⟨c, hc, hfalse⟩ := List.any_eq_true.mp hbottom
    refine iff_of_false not_holdsWith_false fun h => ?_
    have hholds := hparts.mp h c hc
    cases c with
    | false => exact not_holdsWith_false hholds
    | true | literal _ | and _ | or _ | «forall» _ _ | «exists» _ _ => cases hfalse
  next =>
    split
    next hnil => exact iff_of_true holdsWith_true (hnil ▸ List.forall_mem_nil _)
    next d hone => rw [hone, List.forall_mem_singleton]
    next => exact holdsWith_and

theorem holdsWith_simplifyNode_or :
    (simplifyNode (.or cs)).HoldsWith objects reading values ↔
      ∃ c ∈ cs, c.HoldsWith objects reading values := by
  have hparts : (∃ d ∈ cs.flatMap disjunctionParts, d.HoldsWith objects reading values) ↔
      ∃ c ∈ cs, c.HoldsWith objects reading values := by
    constructor
    · intro ⟨d, hd, hholds⟩
      obtain ⟨c, hc, hd⟩ := List.mem_flatMap.mp hd
      exact ⟨c, hc, holdsWith_disjunctionParts.mp ⟨d, hd, hholds⟩⟩
    · intro ⟨c, hc, hholds⟩
      obtain ⟨d, hd, hholds⟩ := holdsWith_disjunctionParts.mpr hholds
      exact ⟨d, List.mem_flatMap.mpr ⟨c, hc, hd⟩, hholds⟩
  rw [simplifyNode, ← hparts]
  split
  next htop =>
    obtain ⟨c, hc, htrue⟩ := List.any_eq_true.mp htop
    refine iff_of_true holdsWith_true (hparts.mpr ⟨c, hc, ?_⟩)
    cases c with
    | true => exact holdsWith_true
    | false | literal _ | and _ | or _ | «forall» _ _ | «exists» _ _ => cases htrue
  next =>
    split
    next hnil => simp [hnil]
    next d hone => simp [hone]
    next => exact holdsWith_or

/-! ### Sizes and nodes -/

theorem sizeAll_map {f : Condition → Condition} (h : ∀ c ∈ cs, (f c).size = c.size) :
    sizeAll (cs.map f) = sizeAll cs := by
  induction cs with
  | nil => rfl
  | cons c cs ih =>
      rw [List.forall_mem_cons] at h
      rw [List.map_cons, sizeAll, sizeAll, h.1, ih h.2]

@[simp] theorem size_negate (c : Condition) : c.negate.size = c.size := by
  induction c with
  | true | false | literal l => simp [size]
  | and parts ih | or parts ih => simp [size, sizeAll_map ih]
  | «forall» ps body ih | «exists» ps body ih => simp [size, ih]

theorem IsScoped.hasUniversalPart {t : Task} {vars : List String}
    (h : c.IsScoped t .withoutUniversals vars) : c.hasUniversalPart = .false := by
  rw [Condition.hasUniversalPart, List.any_eq_false]
  intro d hd
  cases d with
  | «forall» => cases h.inFragment _ hd
  | true | false | literal _ | and _ | or _ | «exists» _ _ => exact Bool.false_ne_true

/-- The predicates that occur have as many arguments as they take. -/
theorem IsScoped.hasArity {t : Task} {k : Fragment} {vars : List String} (h : c.IsScoped t k vars) :
    ∀ l ∈ c.literals, t.HasArity l.atom.predicate l.atom.args.length :=
  fun l hl => ((isScoped_iff.mp h).2.1 l hl).arity

end Condition
end FinitePlanning
