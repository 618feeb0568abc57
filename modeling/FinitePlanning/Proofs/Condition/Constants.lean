import FinitePlanning.Proofs.Condition.Meaning

/-!
Constants in conditions. Exactly those conditions simplify to a constant that are true or false by
their connectives alone. Simplification drops the quantifiers over them, also those that range over
no object, and keeps the truth value of a condition in all other respects.
-/

namespace FinitePlanning
namespace Condition

open Grounding (valuesOf)

variable {objects : String → List String} {s : Interpretation} {values : Renaming}
  {reading : Literal → Prop} {c : Condition} {cs : List Condition} {ps : List Parameter}
  {body : Condition} {v : Bool}

/-- The condition without parts that has a truth value. -/
def constant : Bool → Condition
  | .true => .true
  | .false => .false

/-- The connectives of a condition alone give it a truth value. -/
inductive IsConstantly : Bool → Condition → Prop where
  | true : IsConstantly .true .true
  | false : IsConstantly .false .false
  | and_true {cs : List Condition} (h : ∀ c ∈ cs, IsConstantly .true c) :
      IsConstantly .true (.and cs)
  | and_false {cs : List Condition} {c : Condition} (hc : c ∈ cs) (h : IsConstantly .false c) :
      IsConstantly .false (.and cs)
  | or_true {cs : List Condition} {c : Condition} (hc : c ∈ cs) (h : IsConstantly .true c) :
      IsConstantly .true (.or cs)
  | or_false {cs : List Condition} (h : ∀ c ∈ cs, IsConstantly .false c) :
      IsConstantly .false (.or cs)
  | «forall» {v : Bool} {ps : List Parameter} {body : Condition} (h : IsConstantly v body) :
      IsConstantly v (.forall ps body)
  | «exists» {v : Bool} {ps : List Parameter} {body : Condition} (h : IsConstantly v body) :
      IsConstantly v (.exists ps body)

@[simp] theorem isConstantly_true : Condition.true.IsConstantly v ↔ v = .true :=
  ⟨fun | .true => rfl, fun h => h ▸ .true⟩

@[simp] theorem isConstantly_false : Condition.false.IsConstantly v ↔ v = .false :=
  ⟨fun | .false => rfl, fun h => h ▸ .false⟩

@[simp] theorem not_isConstantly_literal {l : Literal} :
    ¬ (Condition.literal l).IsConstantly v := nofun

@[simp] theorem isConstantly_true_and :
    (Condition.and cs).IsConstantly .true ↔ ∀ c ∈ cs, c.IsConstantly .true :=
  ⟨fun | .and_true h => h, .and_true⟩

@[simp] theorem isConstantly_false_and :
    (Condition.and cs).IsConstantly .false ↔ ∃ c ∈ cs, c.IsConstantly .false :=
  ⟨fun | .and_false hc h => ⟨_, hc, h⟩, fun ⟨_, hc, h⟩ => .and_false hc h⟩

@[simp] theorem isConstantly_true_or :
    (Condition.or cs).IsConstantly .true ↔ ∃ c ∈ cs, c.IsConstantly .true :=
  ⟨fun | .or_true hc h => ⟨_, hc, h⟩, fun ⟨_, hc, h⟩ => .or_true hc h⟩

@[simp] theorem isConstantly_false_or :
    (Condition.or cs).IsConstantly .false ↔ ∀ c ∈ cs, c.IsConstantly .false :=
  ⟨fun | .or_false h => h, .or_false⟩

@[simp] theorem isConstantly_forall :
    (Condition.forall ps body).IsConstantly v ↔ body.IsConstantly v :=
  ⟨fun | .forall h => h, .forall⟩

@[simp] theorem isConstantly_exists :
    (Condition.exists ps body).IsConstantly v ↔ body.IsConstantly v :=
  ⟨fun | .exists h => h, .exists⟩

theorem isConstant_iff : c.isConstant = .true ↔ ∃ v, c = constant v := by
  constructor
  · intro h
    cases c with
    | true => exact ⟨.true, rfl⟩
    | false => exact ⟨.false, rfl⟩
    | literal _ | and _ | or _ | «forall» _ _ | «exists» _ _ => cases h
  · rintro ⟨_ | _, rfl⟩
    · rfl
    · rfl

theorem ne_constant (h : c.isConstant = .false) : c ≠ constant v := by
  rintro rfl
  cases v <;> cases h

/-! ### What simplifies to a constant -/

theorem conjunctionParts_eq_nil (h : c.IsSimplified) : c.conjunctionParts = [] ↔ c = .true := by
  cases h with
  | truth => exact iff_of_true rfl rfl
  | and several _ _ =>
      refine iff_of_false (fun hnil => ?_) (by simp)
      exact absurd (List.length_eq_zero_iff.mpr hnil) (Nat.ne_zero_of_lt several)
  | falsity | literal _ | or _ _ _ | «forall» _ _ _ | «exists» _ _ _ =>
      exact iff_of_false (List.cons_ne_nil _ _) (by simp)

theorem disjunctionParts_eq_nil (h : c.IsSimplified) : c.disjunctionParts = [] ↔ c = .false := by
  cases h with
  | falsity => exact iff_of_true rfl rfl
  | or several _ _ =>
      refine iff_of_false (fun hnil => ?_) (by simp)
      exact absurd (List.length_eq_zero_iff.mpr hnil) (Nat.ne_zero_of_lt several)
  | truth | literal _ | and _ _ _ | «forall» _ _ _ | «exists» _ _ _ =>
      exact iff_of_false (List.cons_ne_nil _ _) (by simp)

theorem isConstant_of_isConjunct (h : c.isConjunct = .true) : c.isConstant = .false := by
  cases c with
  | true | false => cases h
  | literal _ | and _ | or _ | «forall» _ _ | «exists» _ _ => rfl

theorem isConstant_of_isDisjunct (h : c.isDisjunct = .true) : c.isConstant = .false := by
  cases c with
  | true | false => cases h
  | literal _ | and _ | or _ | «forall» _ _ | «exists» _ _ => rfl

/-- A conjunction simplifies to a constant if a part is false, or all parts are true. -/
theorem simplifyNode_and_eq_constant (hs : ∀ c ∈ cs, c.IsSimplified) :
    simplifyNode (.and cs) = constant v ↔
      v = .false ∧ .false ∈ cs ∨ v = .true ∧ ∀ c ∈ cs, c = .true := by
  have hnil : cs.flatMap conjunctionParts = [] ↔ ∀ c ∈ cs, c = .true :=
    List.flatMap_eq_nil_iff.trans
      (forall₂_congr fun c hc => conjunctionParts_eq_nil (hs c hc))
  rw [simplifyNode, ← hnil]
  simp only [any_isBottom]
  split
  next hbottom =>
    have hsome : cs.flatMap conjunctionParts ≠ [] := fun h => by cases hnil.mp h _ hbottom
    cases v with
    | false => simp [constant, hbottom]
    | true => simp [constant, hsome]
  next hbottom =>
    have hopen : ∀ d ∈ cs.flatMap conjunctionParts, ∀ v, d ≠ constant v := by
      intro d hd v hv
      obtain ⟨c, hc, hd⟩ := List.mem_flatMap.mp hd
      have hconjunct := of_mem_conjunctionParts (hs c hc)
        (fun h => hbottom (isBottom_iff.mp h ▸ hc)) hd
      exact ne_constant (isConstant_of_isConjunct hconjunct.2) hv
    split
    next h => cases v <;> simp [constant, h, hbottom]
    next d h => simp [hopen d (h ▸ List.mem_singleton_self d), h, hbottom]
    next hsome _ =>
      refine iff_of_false (ne_constant rfl) ?_
      rintro (⟨-, hfalse⟩ | ⟨-, hnone⟩)
      · exact hbottom hfalse
      · exact hsome hnone

/-- A disjunction simplifies to a constant if a part is true, or all parts are false. -/
theorem simplifyNode_or_eq_constant (hs : ∀ c ∈ cs, c.IsSimplified) :
    simplifyNode (.or cs) = constant v ↔
      v = .true ∧ .true ∈ cs ∨ v = .false ∧ ∀ c ∈ cs, c = .false := by
  have hnil : cs.flatMap disjunctionParts = [] ↔ ∀ c ∈ cs, c = .false :=
    List.flatMap_eq_nil_iff.trans
      (forall₂_congr fun c hc => disjunctionParts_eq_nil (hs c hc))
  rw [simplifyNode, ← hnil]
  simp only [any_isTop]
  split
  next htop =>
    have hsome : cs.flatMap disjunctionParts ≠ [] := fun h => by cases hnil.mp h _ htop
    cases v with
    | false => simp [constant, hsome]
    | true => simp [constant, htop]
  next htop =>
    have hopen : ∀ d ∈ cs.flatMap disjunctionParts, ∀ v, d ≠ constant v := by
      intro d hd v hv
      obtain ⟨c, hc, hd⟩ := List.mem_flatMap.mp hd
      have hdisjunct := of_mem_disjunctionParts (hs c hc)
        (fun h => htop (isTop_iff.mp h ▸ hc)) hd
      exact ne_constant (isConstant_of_isDisjunct hdisjunct.2) hv
    split
    next h => cases v <;> simp [constant, h, htop]
    next d h => simp [hopen d (h ▸ List.mem_singleton_self d), h, htop]
    next hsome _ =>
      refine iff_of_false (ne_constant rfl) ?_
      rintro (⟨-, htrue⟩ | ⟨-, hnone⟩)
      · exact htop htrue
      · exact hsome hnone

theorem simplifyNode_forall_eq_constant :
    simplifyNode (.forall ps body) = constant v ↔ body = constant v := by
  rw [simplifyNode]
  split
  · rfl
  next hopen =>
    refine iff_of_false (ne_constant rfl) fun h => hopen ?_
    rw [isConstant_iff.mpr ⟨v, h⟩, Bool.or_true]

theorem simplifyNode_exists_eq_constant :
    simplifyNode (.exists ps body) = constant v ↔ body = constant v := by
  rw [simplifyNode]
  split
  · rfl
  next hopen =>
    refine iff_of_false (ne_constant rfl) fun h => hopen ?_
    rw [isConstant_iff.mpr ⟨v, h⟩, Bool.or_true]

theorem simplified_eq_constant : c.simplified = constant v ↔ c.IsConstantly v := by
  induction c generalizing v with
  | true => cases v <;> simp [constant]
  | false => cases v <;> simp [constant]
  | literal l => cases v <;> simp [constant]
  | and parts ih =>
      rw [simplified_and, simplifyNode_and_eq_constant
        (List.forall_mem_map.mpr fun c _ => isSimplified_simplified c)]
      cases v with
      | false =>
          simpa [constant] using exists_congr fun c => and_congr_right fun hc =>
            ih c hc (v := .false)
      | true => simpa [constant] using forall₂_congr fun c hc => ih c hc (v := .true)
  | or parts ih =>
      rw [simplified_or, simplifyNode_or_eq_constant
        (List.forall_mem_map.mpr fun c _ => isSimplified_simplified c)]
      cases v with
      | false => simpa [constant] using forall₂_congr fun c hc => ih c hc (v := .false)
      | true =>
          simpa [constant] using exists_congr fun c => and_congr_right fun hc =>
            ih c hc (v := .true)
  | «forall» ps body ih =>
      rw [simplified_forall, simplifyNode_forall_eq_constant, isConstantly_forall]
      exact ih
  | «exists» ps body ih =>
      rw [simplified_exists, simplifyNode_exists_eq_constant, isConstantly_exists]
      exact ih

/-! ### Truth -/

/-- The truth value of a condition in which a universal quantifier over a constantly false condition
and an existential quantifier over a constantly true one count as that constant. -/
inductive HoldsFolded (objects : String → List String) (reading : Literal → Prop) :
    Renaming → Condition → Prop where
  | true {values : Renaming} : HoldsFolded objects reading values .true
  | literal {values : Renaming} {l : Literal} (h : reading (l.rename values)) :
      HoldsFolded objects reading values (.literal l)
  | and {values : Renaming} {cs : List Condition}
      (h : ∀ c ∈ cs, HoldsFolded objects reading values c) :
      HoldsFolded objects reading values (.and cs)
  | or {values : Renaming} {cs : List Condition} {c : Condition} (hc : c ∈ cs)
      (h : HoldsFolded objects reading values c) : HoldsFolded objects reading values (.or cs)
  | «forall» {values : Renaming} {ps : List Parameter} {body : Condition}
      (hopen : ¬ body.IsConstantly .false)
      (h : ∀ os, TypedBy objects ps os →
        HoldsFolded objects reading (valuesOf ps os ++ values) body) :
      HoldsFolded objects reading values (.forall ps body)
  | exists_true {values : Renaming} {ps : List Parameter} {body : Condition}
      (h : body.IsConstantly .true) : HoldsFolded objects reading values (.exists ps body)
  | «exists» {values : Renaming} {ps : List Parameter} {body : Condition} {os : List String}
      (hos : TypedBy objects ps os)
      (h : HoldsFolded objects reading (valuesOf ps os ++ values) body) :
      HoldsFolded objects reading values (.exists ps body)

@[simp] theorem holdsFolded_true : Condition.true.HoldsFolded objects reading values := .true

@[simp] theorem not_holdsFolded_false : ¬ Condition.false.HoldsFolded objects reading values := nofun

@[simp] theorem holdsFolded_literal (l : Literal) :
    (Condition.literal l).HoldsFolded objects reading values ↔ reading (l.rename values) :=
  ⟨fun | .literal h => h, .literal⟩

@[simp] theorem holdsFolded_and : (Condition.and cs).HoldsFolded objects reading values ↔
    ∀ c ∈ cs, c.HoldsFolded objects reading values :=
  ⟨fun | .and h => h, .and⟩

@[simp] theorem holdsFolded_or : (Condition.or cs).HoldsFolded objects reading values ↔
    ∃ c ∈ cs, c.HoldsFolded objects reading values :=
  ⟨fun | .or hc h => ⟨_, hc, h⟩, fun ⟨_, hc, h⟩ => .or hc h⟩

theorem holdsFolded_forall : (Condition.forall ps body).HoldsFolded objects reading values ↔
    ¬ body.IsConstantly .false ∧ ∀ os, TypedBy objects ps os →
      body.HoldsFolded objects reading (valuesOf ps os ++ values) :=
  ⟨fun | .forall hopen h => ⟨hopen, h⟩, fun ⟨hopen, h⟩ => .forall hopen h⟩

theorem holdsFolded_exists : (Condition.exists ps body).HoldsFolded objects reading values ↔
    body.IsConstantly .true ∨ ∃ os, TypedBy objects ps os ∧
      body.HoldsFolded objects reading (valuesOf ps os ++ values) := by
  constructor
  · intro h
    cases h with
    | exists_true h => exact .inl h
    | «exists» hos h => exact .inr ⟨_, hos, h⟩
  · rintro (h | ⟨os, hos, h⟩)
    · exact .exists_true h
    · exact .exists hos h

theorem holdsWith_simplifyNode_forall :
    (simplifyNode (.forall ps body)).HoldsWith objects reading values ↔
      body ≠ .false ∧ ∀ os, TypedBy objects ps os →
        body.HoldsWith objects reading (valuesOf ps os ++ values) := by
  rw [simplifyNode]
  split
  next hdrop =>
    rcases (Bool.or_eq_true _ _).mp hdrop with hnil | hconstant
    · rw [List.isEmpty_iff.mp hnil]
      simp only [typedBy_nil, forall_eq]
      exact (and_iff_right_of_imp fun h hfalse => not_holdsWith_false (hfalse ▸ h)).symm
    · obtain ⟨_ | _, rfl⟩ := isConstant_iff.mp hconstant
      · simp [constant]
      · simp [constant]
  next hopen =>
    rw [holdsWith_forall]
    refine (and_iff_right ?_).symm
    rintro rfl
    exact hopen (Bool.or_true _)

theorem holdsWith_simplifyNode_exists :
    (simplifyNode (.exists ps body)).HoldsWith objects reading values ↔
      body = .true ∨ ∃ os, TypedBy objects ps os ∧
        body.HoldsWith objects reading (valuesOf ps os ++ values) := by
  rw [simplifyNode]
  split
  next hdrop =>
    rcases (Bool.or_eq_true _ _).mp hdrop with hnil | hconstant
    · rw [List.isEmpty_iff.mp hnil]
      simp only [typedBy_nil, exists_eq_left]
      exact (or_iff_right_of_imp fun htrue => htrue ▸ holdsWith_true).symm
    · obtain ⟨_ | _, rfl⟩ := isConstant_iff.mp hconstant
      · simp [constant]
      · simp [constant]
  next hopen =>
    rw [holdsWith_exists]
    refine (or_iff_right ?_).symm
    rintro rfl
    exact hopen (Bool.or_true _)

theorem holdsWith_simplified :
    c.simplified.HoldsWith objects reading values ↔ c.HoldsFolded objects reading values := by
  induction c generalizing values with
  | true | false | literal l => simp [simplified, simplifyNode]
  | and parts ih =>
      rw [simplified_and, holdsWith_simplifyNode_and, holdsFolded_and, List.forall_mem_map]
      exact forall₂_congr fun c hc => ih c hc
  | or parts ih =>
      simp only [simplified_or, holdsWith_simplifyNode_or, holdsFolded_or, List.mem_map,
        exists_exists_and_eq_and]
      exact exists_congr fun c => and_congr_right fun hc => ih c hc
  | «forall» ps body ih =>
      rw [simplified_forall, holdsWith_simplifyNode_forall, holdsFolded_forall]
      exact and_congr (not_congr (simplified_eq_constant (v := .false))) (forall₂_congr fun os _ => ih)
  | «exists» ps body ih =>
      rw [simplified_exists, holdsWith_simplifyNode_exists, holdsFolded_exists]
      exact or_congr (simplified_eq_constant (v := .true))
        (exists_congr fun os => and_congr_right fun _ => ih)

theorem IsConstantly.holdsFolded_iff (h : c.IsConstantly v) :
    c.HoldsFolded objects reading values ↔ v = .true := by
  rw [← holdsWith_simplified, simplified_eq_constant.mpr h]
  cases v with
  | true => exact iff_of_true holdsWith_true rfl
  | false => exact iff_of_false not_holdsWith_false Bool.false_ne_true

theorem exists_typedBy : (∃ os, TypedBy objects ps os) ↔ ∀ p ∈ ps, objects p.type ≠ [] := by
  constructor
  · rintro ⟨os, hos⟩ p hp
    obtain ⟨o, -, ho⟩ := exists_of_mem_forall₂ hos hp
    exact List.ne_nil_of_mem ho
  · intro h
    induction ps with
    | nil => exact ⟨[], .nil⟩
    | cons p ps ih =>
        obtain ⟨o, ho⟩ := List.exists_mem_of_ne_nil _ (h p List.mem_cons_self)
        obtain ⟨os, hos⟩ := ih fun q hq => h q (List.mem_cons_of_mem p hq)
        exact ⟨o :: os, .cons ho hos⟩

/-- If the range of a quantifier decides whether it may be dropped, it ranges over some objects. -/
def HasRange (objects : String → List String) : Condition → Prop
  | .forall ps body => body.IsConstantly .false → ∀ p ∈ ps, objects p.type ≠ []
  | .exists ps body => body.IsConstantly .true → ∀ p ∈ ps, objects p.type ≠ []
  | _ => True

/-- All quantifiers that simplification may drop range over some objects, if that matters. -/
def IsInhabited (objects : String → List String) (c : Condition) : Prop :=
  ∀ d ∈ c.walk, d.HasRange objects

theorem isInhabited_iff :
    c.IsInhabited objects ↔ c.HasRange objects ∧ ∀ d ∈ c.parts, d.IsInhabited objects :=
  forall_mem_walk

theorem isInhabited_of_objects (h : ∀ type, objects type ≠ []) (c : Condition) :
    c.IsInhabited objects := by
  intro d _
  cases d with
  | true | false | literal _ | and _ | or _ => trivial
  | «forall» ps body | «exists» ps body => exact fun _ p _ => h p.type

/-- If the dropped quantifiers range over objects, the truth value stays the same. -/
theorem IsInhabited.holdsFolded_iff (h : c.IsInhabited objects) :
    c.HoldsFolded objects reading values ↔ c.HoldsWith objects reading values := by
  induction c generalizing values with
  | true | false | literal l => simp
  | and parts ih =>
      rw [holdsFolded_and, holdsWith_and]
      exact forall₂_congr fun c hc => ih c hc ((isInhabited_iff.mp h).2 c hc)
  | or parts ih =>
      rw [holdsFolded_or, holdsWith_or]
      exact exists_congr fun c => and_congr_right fun hc =>
        ih c hc ((isInhabited_iff.mp h).2 c hc)
  | «forall» ps body ih =>
      obtain ⟨hrange, hparts⟩ := isInhabited_iff.mp h
      have hbody (os : List String) :
          body.HoldsFolded objects reading (valuesOf ps os ++ values) ↔
            body.HoldsWith objects reading (valuesOf ps os ++ values) :=
        ih (hparts body List.mem_cons_self)
      simp only [holdsFolded_forall, holdsWith_forall, hbody]
      refine and_iff_right_of_imp fun hall hfalse => ?_
      obtain ⟨os, hos⟩ := exists_typedBy.mpr (hrange hfalse)
      exact Bool.false_ne_true (hfalse.holdsFolded_iff.mp ((hbody os).mpr (hall os hos)))
  | «exists» ps body ih =>
      obtain ⟨hrange, hparts⟩ := isInhabited_iff.mp h
      have hbody (os : List String) :
          body.HoldsFolded objects reading (valuesOf ps os ++ values) ↔
            body.HoldsWith objects reading (valuesOf ps os ++ values) :=
        ih (hparts body List.mem_cons_self)
      simp only [holdsFolded_exists, holdsWith_exists, hbody]
      refine or_iff_right_of_imp fun htrue => ?_
      obtain ⟨os, hos⟩ := exists_typedBy.mpr (hrange htrue)
      exact ⟨os, hos, (hbody os).mp (htrue.holdsFolded_iff.mpr rfl)⟩

/-- An existential quantifier over nothing is false, also where it simplifies to true. -/
theorem simplified_exists_of_empty {p : Parameter} (h : body.IsConstantly .true) (hp : p ∈ ps)
    (hempty : objects p.type = []) : (Condition.exists ps body).simplified = .true ∧
      ¬ (Condition.exists ps body).Holds objects s values := by
  refine ⟨simplified_eq_constant.mpr (isConstantly_exists.mpr h), fun hholds => ?_⟩
  obtain ⟨os, hos, -⟩ := holds_exists.mp hholds
  exact exists_typedBy.mp ⟨os, hos⟩ p hp hempty

/-- A universal quantifier over nothing is true, also where it simplifies to false. -/
theorem simplified_forall_of_empty {p : Parameter} (h : body.IsConstantly .false) (hp : p ∈ ps)
    (hempty : objects p.type = []) : (Condition.forall ps body).simplified = .false ∧
      (Condition.forall ps body).Holds objects s values := by
  refine ⟨simplified_eq_constant.mpr (isConstantly_forall.mpr h), holds_forall.mpr ?_⟩
  exact fun os hos => absurd hempty (exists_typedBy.mp ⟨os, hos⟩ p hp)

/-- Simplification keeps the truth value of a condition, except that a quantifier over a condition
that simplifies to a constant counts as this constant, whatever it ranges over. -/
theorem simplification_preserves_truth (c : Condition) (objects : String → List String)
    (s : Interpretation) (values : Renaming) :
    (c.simplified.Holds objects s values ↔ c.HoldsFolded objects (Literal.Holds s) values) ∧
      (c.IsInhabited objects →
        (c.simplified.Holds objects s values ↔ c.Holds objects s values)) := by
  simp only [holds_iff_holdsWith, holdsWith_simplified, true_and]
  exact IsInhabited.holdsFolded_iff

theorem simplification_preserves_truth_of_box :
    (Condition.exists [⟨"?x", "box"⟩] (.and [])).IsInhabited (fun _ => ["crate"]) ∧
      ((Condition.exists [⟨"?x", "box"⟩] (.and [])).simplified.Holds (fun _ => ["crate"]) ∅ [] ↔
        (Condition.exists [⟨"?x", "box"⟩] (.and [])).Holds (fun _ => ["crate"]) ∅ []) := by
  have h : (Condition.exists [⟨"?x", "box"⟩] (.and [])).IsInhabited (fun _ => ["crate"]) := by
    refine isInhabited_iff.mpr ⟨fun _ => by simp, List.forall_mem_singleton.mpr ?_⟩
    exact isInhabited_iff.mpr ⟨trivial, List.forall_mem_nil _⟩
  exact ⟨h, (simplification_preserves_truth _ _ _ _).2 h⟩

theorem simplification_changes_exists_without_objects :
    ¬ ((Condition.exists [⟨"?x", "box"⟩] (.and [])).simplified.Holds (fun _ => []) ∅ [] ↔
      (Condition.exists [⟨"?x", "box"⟩] (.and [])).Holds (fun _ => []) ∅ []) := by
  have h : (Condition.exists [⟨"?x", "box"⟩] (.and [])).simplified = .true ∧
      ¬ (Condition.exists [⟨"?x", "box"⟩] (.and [])).Holds (fun _ => []) ∅ [] :=
    simplified_exists_of_empty (isConstantly_true_and.mpr (List.forall_mem_nil _))
      (List.mem_singleton_self _) rfl
  rw [h.1]
  exact fun hiff => h.2 (hiff.mp holds_true)

/-! ### Conditions without constants -/

/-- Constants stand at most at the top, and no junction is empty. -/
inductive IsSolid : Condition → Prop where
  | literal (l : Literal) : IsSolid (.literal l)
  | and {cs : List Condition} (some : cs ≠ []) (h : ∀ c ∈ cs, IsSolid c) : IsSolid (.and cs)
  | or {cs : List Condition} (some : cs ≠ []) (h : ∀ c ∈ cs, IsSolid c) : IsSolid (.or cs)
  | «forall» {ps : List Parameter} {body : Condition} (h : IsSolid body) :
      IsSolid (.forall ps body)
  | «exists» {ps : List Parameter} {body : Condition} (h : IsSolid body) :
      IsSolid (.exists ps body)

theorem IsSimplified.isSolid (h : c.IsSimplified) (hopen : c.isConstant = .false) : c.IsSolid := by
  induction h with
  | truth => cases hopen
  | falsity => cases hopen
  | literal l => exact .literal l
  | and several _ hconjunct ih =>
      exact .and (List.ne_nil_of_length_pos (Nat.lt_of_lt_of_le Nat.two_pos several))
        fun c hc => ih c hc (isConstant_of_isConjunct (hconjunct c hc))
  | or several _ hdisjunct ih =>
      exact .or (List.ne_nil_of_length_pos (Nat.lt_of_lt_of_le Nat.two_pos several))
        fun c hc => ih c hc (isConstant_of_isDisjunct (hdisjunct c hc))
  | «forall» _ _ hbody ih => exact .forall (ih hbody)
  | «exists» _ _ hbody ih => exact .exists (ih hbody)

theorem IsSolid.not_isConstantly (h : c.IsSolid) : ¬ c.IsConstantly v := by
  induction h generalizing v with
  | literal l => exact not_isConstantly_literal
  | @and cs some _ ih =>
      obtain ⟨c, hc⟩ := List.exists_mem_of_ne_nil cs some
      cases v with
      | false => exact fun h => (isConstantly_false_and.mp h).elim fun d hd => ih d hd.1 hd.2
      | true => exact fun h => ih c hc (isConstantly_true_and.mp h c hc)
  | @or cs some _ ih =>
      obtain ⟨c, hc⟩ := List.exists_mem_of_ne_nil cs some
      cases v with
      | false => exact fun h => ih c hc (isConstantly_false_or.mp h c hc)
      | true => exact fun h => (isConstantly_true_or.mp h).elim fun d hd => ih d hd.1 hd.2
  | «forall» _ ih => exact mt isConstantly_forall.mp ih
  | «exists» _ ih => exact mt isConstantly_exists.mp ih

theorem IsSolid.isInhabited (h : c.IsSolid) : c.IsInhabited objects := by
  induction h with
  | literal l => exact isInhabited_iff.mpr ⟨trivial, List.forall_mem_nil _⟩
  | and _ _ ih | or _ _ ih => exact isInhabited_iff.mpr ⟨trivial, ih⟩
  | «forall» hbody ih | «exists» hbody ih =>
      exact isInhabited_iff.mpr
        ⟨fun h => absurd h hbody.not_isConstantly, List.forall_mem_singleton.mpr ih⟩

theorem IsSolid.isConstant_simplified (h : c.IsSolid) : c.simplified.isConstant = .false := by
  refine Bool.eq_false_iff.mpr fun hconstant => ?_
  obtain ⟨v, hv⟩ := isConstant_iff.mp hconstant
  exact h.not_isConstantly (simplified_eq_constant.mp hv)

/-- Simplification of a solid condition drops no quantifier over a constant. -/
theorem IsSolid.holdsWith_simplified (h : c.IsSolid) :
    c.simplified.HoldsWith objects reading values ↔ c.HoldsWith objects reading values :=
  Condition.holdsWith_simplified.trans h.isInhabited.holdsFolded_iff

theorem IsSolid.holds_simplified (h : c.IsSolid) :
    c.simplified.Holds objects s values ↔ c.Holds objects s values := by
  rw [holds_iff_holdsWith, holds_iff_holdsWith]
  exact h.holdsWith_simplified

end Condition
end FinitePlanning
