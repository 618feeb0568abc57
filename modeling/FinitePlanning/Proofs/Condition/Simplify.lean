import FinitePlanning.Proofs.Collections
import FinitePlanning.Proofs.Condition.Traversal

/-!
The form of simplified conditions: no constant below another node, no conjunction within a
conjunction, and no disjunction within a disjunction. Simplification leaves such a condition as it
is. Negation is an involution that exchanges the two connectives, the two quantifiers and the two
constants, so that it commutes with simplification and keeps this form.
-/

namespace FinitePlanning
namespace Condition

variable {c d : Condition} {cs : List Condition} {ps : List Parameter} {body : Condition}

/-- Whether a condition may stand in a simplified conjunction. -/
def isConjunct : Condition → Bool
  | .true | .false | .and _ => .false
  | _ => .true

/-- Whether a condition may stand in a simplified disjunction. -/
def isDisjunct : Condition → Bool
  | .true | .false | .or _ => .false
  | _ => .true

inductive IsSimplified : Condition → Prop where
  | truth : IsSimplified .true
  | falsity : IsSimplified .false
  | literal (l : Literal) : IsSimplified (.literal l)
  | and {parts : List Condition} (several : 2 ≤ parts.length)
      (hparts : ∀ c ∈ parts, IsSimplified c) (hconjunct : ∀ c ∈ parts, c.isConjunct = .true) :
      IsSimplified (.and parts)
  | or {parts : List Condition} (several : 2 ≤ parts.length)
      (hparts : ∀ c ∈ parts, IsSimplified c) (hdisjunct : ∀ c ∈ parts, c.isDisjunct = .true) :
      IsSimplified (.or parts)
  | «forall» {ps : List Parameter} {body : Condition} (some : ps ≠ [])
      (hbody : IsSimplified body) (open' : body.isConstant = .false) :
      IsSimplified (.forall ps body)
  | «exists» {ps : List Parameter} {body : Condition} (some : ps ≠ [])
      (hbody : IsSimplified body) (open' : body.isConstant = .false) :
      IsSimplified (.exists ps body)

/-- The parts of a simplified condition are simplified. -/
theorem IsSimplified.of_mem_parts (h : c.IsSimplified) (hd : d ∈ c.parts) :
    d.IsSimplified := by
  cases h with
  | truth | falsity | literal l => cases hd
  | and _ hparts _ | or _ hparts _ => exact hparts d hd
  | «forall» _ hbody _ | «exists» _ hbody _ => exact List.mem_singleton.mp hd ▸ hbody

theorem of_mem_conjunctionParts (h : c.IsSimplified) (hbottom : ¬ c.isBottom)
    (hd : d ∈ c.conjunctionParts) : d.IsSimplified ∧ d.isConjunct = .true := by
  cases h with
  | truth => cases hd
  | falsity => exact absurd rfl hbottom
  | and _ hparts hconjunct => exact ⟨hparts d hd, hconjunct d hd⟩
  | literal l =>
      obtain rfl := List.mem_singleton.mp hd
      exact ⟨.literal l, rfl⟩
  | or several hparts hdisjunct =>
      obtain rfl := List.mem_singleton.mp hd
      exact ⟨.or several hparts hdisjunct, rfl⟩
  | «forall» some hbody hopen =>
      obtain rfl := List.mem_singleton.mp hd
      exact ⟨.forall some hbody hopen, rfl⟩
  | «exists» some hbody hopen =>
      obtain rfl := List.mem_singleton.mp hd
      exact ⟨.exists some hbody hopen, rfl⟩

theorem of_mem_disjunctionParts (h : c.IsSimplified) (htop : ¬ c.isTop)
    (hd : d ∈ c.disjunctionParts) : d.IsSimplified ∧ d.isDisjunct = .true := by
  cases h with
  | truth => exact absurd rfl htop
  | falsity => cases hd
  | or _ hparts hdisjunct => exact ⟨hparts d hd, hdisjunct d hd⟩
  | literal l =>
      obtain rfl := List.mem_singleton.mp hd
      exact ⟨.literal l, rfl⟩
  | and several hparts hconjunct =>
      obtain rfl := List.mem_singleton.mp hd
      exact ⟨.and several hparts hconjunct, rfl⟩
  | «forall» some hbody hopen =>
      obtain rfl := List.mem_singleton.mp hd
      exact ⟨.forall some hbody hopen, rfl⟩
  | «exists» some hbody hopen =>
      obtain rfl := List.mem_singleton.mp hd
      exact ⟨.exists some hbody hopen, rfl⟩

theorem isSimplified_simplifyNode (h : ∀ p ∈ c.parts, p.IsSimplified) :
    (simplifyNode c).IsSimplified := by
  cases c with
  | true => exact .truth
  | false => exact .falsity
  | literal l => exact .literal l
  | and parts =>
      rw [simplifyNode]
      split
      next => exact .falsity
      next hbottom =>
        have hall : ∀ d ∈ parts.flatMap conjunctionParts, d.IsSimplified ∧ d.isConjunct = .true := by
          intro d hd
          obtain ⟨p, hp, hd⟩ := List.mem_flatMap.mp hd
          exact of_mem_conjunctionParts (h p hp)
            (fun hb => hbottom (List.any_eq_true.mpr ⟨p, hp, hb⟩)) hd
        split
        next => exact .truth
        next d hone => exact (hall d (hone ▸ List.mem_singleton_self d)).1
        next rest hnil hone =>
          exact .and (two_le_length hnil hone) (fun d hd => (hall d hd).1) fun d hd => (hall d hd).2
  | or parts =>
      rw [simplifyNode]
      split
      next => exact .truth
      next htop =>
        have hall : ∀ d ∈ parts.flatMap disjunctionParts, d.IsSimplified ∧ d.isDisjunct = .true := by
          intro d hd
          obtain ⟨p, hp, hd⟩ := List.mem_flatMap.mp hd
          exact of_mem_disjunctionParts (h p hp)
            (fun hb => htop (List.any_eq_true.mpr ⟨p, hp, hb⟩)) hd
        split
        next => exact .falsity
        next d hone => exact (hall d (hone ▸ List.mem_singleton_self d)).1
        next rest hnil hone =>
          exact .or (two_le_length hnil hone) (fun d hd => (hall d hd).1) fun d hd => (hall d hd).2
  | «forall» ps body =>
      have hbody := h body List.mem_cons_self
      rw [simplifyNode]
      split
      next => exact hbody
      next hopen =>
        rw [Bool.or_eq_true, not_or, List.isEmpty_iff, Bool.not_eq_true] at hopen
        exact .forall hopen.1 hbody hopen.2
  | «exists» ps body =>
      have hbody := h body List.mem_cons_self
      rw [simplifyNode]
      split
      next => exact hbody
      next hopen =>
        rw [Bool.or_eq_true, not_or, List.isEmpty_iff, Bool.not_eq_true] at hopen
        exact .exists hopen.1 hbody hopen.2

/-! ### Simplification of each kind of condition -/

@[simp] theorem simplified_true : Condition.true.simplified = .true :=
  mapBottomUp_true

@[simp] theorem simplified_false : Condition.false.simplified = .false :=
  mapBottomUp_false

@[simp] theorem simplified_literal (l : Literal) : (Condition.literal l).simplified = .literal l :=
  mapBottomUp_literal l

theorem simplified_and : (Condition.and cs).simplified = simplifyNode (.and (cs.map simplified)) :=
  mapBottomUp_and cs

theorem simplified_or : (Condition.or cs).simplified = simplifyNode (.or (cs.map simplified)) :=
  mapBottomUp_or cs

theorem simplified_forall :
    (Condition.forall ps body).simplified = simplifyNode (.forall ps body.simplified) :=
  mapBottomUp_forall ps body

theorem simplified_exists :
    (Condition.exists ps body).simplified = simplifyNode (.exists ps body.simplified) :=
  mapBottomUp_exists ps body

theorem isSimplified_simplified (c : Condition) : c.simplified.IsSimplified := by
  induction c with
  | true => exact simplified_true.symm ▸ .truth
  | false => exact simplified_false.symm ▸ .falsity
  | literal l => exact (simplified_literal l).symm ▸ .literal l
  | and parts ih =>
      rw [simplified_and]
      exact isSimplified_simplifyNode (List.forall_mem_map.mpr ih)
  | or parts ih =>
      rw [simplified_or]
      exact isSimplified_simplifyNode (List.forall_mem_map.mpr ih)
  | «forall» ps body ih =>
      rw [simplified_forall]
      exact isSimplified_simplifyNode (List.forall_mem_singleton.mpr ih)
  | «exists» ps body ih =>
      rw [simplified_exists]
      exact isSimplified_simplifyNode (List.forall_mem_singleton.mpr ih)

/-! ### Simplifying twice -/

theorem isBottom_iff : c.isBottom = .true ↔ c = .false := by
  cases c with
  | false => exact iff_of_true rfl rfl
  | true | literal _ | and _ | or _ | «forall» _ _ | «exists» _ _ =>
      exact iff_of_false Bool.false_ne_true (by simp)

theorem isTop_iff : c.isTop = .true ↔ c = .true := by
  cases c with
  | true => exact iff_of_true rfl rfl
  | false | literal _ | and _ | or _ | «forall» _ _ | «exists» _ _ =>
      exact iff_of_false Bool.false_ne_true (by simp)

theorem any_isBottom : cs.any isBottom = .true ↔ .false ∈ cs := by
  simp only [List.any_eq_true, isBottom_iff, exists_eq_right]

theorem any_isTop : cs.any isTop = .true ↔ .true ∈ cs := by
  simp only [List.any_eq_true, isTop_iff, exists_eq_right]

theorem conjunctionParts_of_isConjunct (h : c.isConjunct = .true) : c.conjunctionParts = [c] := by
  cases c with
  | true | false | and _ => cases h
  | literal _ | or _ | «forall» _ _ | «exists» _ _ => rfl

theorem disjunctionParts_of_isDisjunct (h : c.isDisjunct = .true) : c.disjunctionParts = [c] := by
  cases c with
  | true | false | or _ => cases h
  | literal _ | and _ | «forall» _ _ | «exists» _ _ => rfl

theorem simplifyNode_and_of_isConjunct (several : 2 ≤ cs.length)
    (h : ∀ c ∈ cs, c.isConjunct = .true) : simplifyNode (.and cs) = .and cs := by
  have hbottom : .false ∉ cs := fun hfalse => by cases h _ hfalse
  have hflat : cs.flatMap conjunctionParts = cs :=
    (List.flatMap_congr fun c hc => conjunctionParts_of_isConjunct (h c hc)).trans
      (List.flatMap_singleton' cs)
  rw [simplifyNode, if_neg (any_isBottom.not.mpr hbottom), hflat]
  rcases cs with _ | ⟨c, _ | ⟨d, rest⟩⟩
  · cases several
  · exact absurd several (by simp)
  · rfl

theorem simplifyNode_or_of_isDisjunct (several : 2 ≤ cs.length)
    (h : ∀ c ∈ cs, c.isDisjunct = .true) : simplifyNode (.or cs) = .or cs := by
  have htop : .true ∉ cs := fun htrue => by cases h _ htrue
  have hflat : cs.flatMap disjunctionParts = cs :=
    (List.flatMap_congr fun c hc => disjunctionParts_of_isDisjunct (h c hc)).trans
      (List.flatMap_singleton' cs)
  rw [simplifyNode, if_neg (any_isTop.not.mpr htop), hflat]
  rcases cs with _ | ⟨c, _ | ⟨d, rest⟩⟩
  · cases several
  · exact absurd several (by simp)
  · rfl

/-- A condition that simplification cannot improve is left as it is. -/
theorem IsSimplified.simplified_eq (h : c.IsSimplified) : c.simplified = c := by
  induction h with
  | truth => exact simplified_true
  | falsity => exact simplified_false
  | literal l => exact simplified_literal l
  | and several _ hconjunct ih =>
      rw [simplified_and, map_eq_self ih, simplifyNode_and_of_isConjunct several hconjunct]
  | or several _ hdisjunct ih =>
      rw [simplified_or, map_eq_self ih, simplifyNode_or_of_isDisjunct several hdisjunct]
  | «forall» some hbody hopen ih =>
      rw [simplified_forall, ih, simplifyNode, if_neg]
      simp [some, hopen]
  | «exists» some hbody hopen ih =>
      rw [simplified_exists, ih, simplifyNode, if_neg]
      simp [some, hopen]

/-- The simplified conditions are those that simplification leaves as they are. -/
theorem isSimplified_iff : c.IsSimplified ↔ c.simplified = c :=
  ⟨IsSimplified.simplified_eq, fun h => h ▸ isSimplified_simplified c⟩

instance (c : Condition) : Decidable c.IsSimplified :=
  decidable_of_iff _ isSimplified_iff.symm

end Condition

@[simp] theorem Literal.negate_negate (l : Literal) : l.negate.negate = l := by
  simp [Literal.negate]

namespace Condition

variable {c : Condition} {cs : List Condition} {ps : List Parameter} {body : Condition}

/-! ### Negation of each kind of condition -/

@[simp] theorem negate_true : Condition.true.negate = .false :=
  mapBottomUp_true

@[simp] theorem negate_false : Condition.false.negate = .true :=
  mapBottomUp_false

@[simp] theorem negate_literal (l : Literal) : (Condition.literal l).negate = .literal l.negate :=
  mapBottomUp_literal l

@[simp] theorem negate_and : (Condition.and cs).negate = .or (cs.map negate) :=
  mapBottomUp_and cs

@[simp] theorem negate_or : (Condition.or cs).negate = .and (cs.map negate) :=
  mapBottomUp_or cs

@[simp] theorem negate_forall : (Condition.forall ps body).negate = .exists ps body.negate :=
  mapBottomUp_forall ps body

@[simp] theorem negate_exists : (Condition.exists ps body).negate = .forall ps body.negate :=
  mapBottomUp_exists ps body

theorem map_negate_negate (h : ∀ c ∈ cs, c.negate.negate = c) :
    (cs.map negate).map negate = cs :=
  List.map_map.trans (map_eq_self h)

@[simp] theorem negate_negate (c : Condition) : c.negate.negate = c := by
  induction c with
  | true | false | literal l => simp
  | and parts ih | or parts ih => simp only [negate_and, negate_or, map_negate_negate ih]
  | «forall» ps body ih | «exists» ps body ih => simp only [negate_forall, negate_exists, ih]

/-! ### Simplified conditions -/

@[simp] theorem isConstant_negate (c : Condition) : c.negate.isConstant = c.isConstant := by
  cases c <;> simp [isConstant]

@[simp] theorem isDisjunct_negate (c : Condition) : c.negate.isDisjunct = c.isConjunct := by
  cases c <;> simp [isDisjunct, isConjunct]

@[simp] theorem isConjunct_negate (c : Condition) : c.negate.isConjunct = c.isDisjunct := by
  rw [← isDisjunct_negate, negate_negate]

theorem IsSimplified.negate (h : c.IsSimplified) : c.negate.IsSimplified := by
  induction h with
  | truth => exact negate_true ▸ .falsity
  | falsity => exact negate_false ▸ .truth
  | literal l => exact negate_literal l ▸ .literal l.negate
  | and several _ hconjunct ih =>
      rw [negate_and]
      exact .or (by simpa using several) (List.forall_mem_map.mpr ih)
        (by simpa using hconjunct)
  | or several _ hdisjunct ih =>
      rw [negate_or]
      exact .and (by simpa using several) (List.forall_mem_map.mpr ih)
        (by simpa using hdisjunct)
  | «forall» some _ hopen ih =>
      rw [negate_forall]
      exact .exists some ih ((isConstant_negate _).trans hopen)
  | «exists» some _ hopen ih =>
      rw [negate_exists]
      exact .forall some ih ((isConstant_negate _).trans hopen)

/-! ### Negation and simplification -/

theorem isTop_negate (c : Condition) : c.negate.isTop = c.isBottom := by
  cases c <;> simp [isTop, isBottom]

theorem disjunctionParts_negate (c : Condition) :
    c.negate.disjunctionParts = c.conjunctionParts.map negate := by
  cases c <;> simp [disjunctionParts, conjunctionParts]

theorem negate_simplifyNode_and (cs : List Condition) :
    (simplifyNode (.and cs)).negate = simplifyNode (.or (cs.map negate)) := by
  have hdecides : (cs.map negate).any isTop = cs.any isBottom := by
    rw [List.any_map]
    exact congrArg cs.any (funext isTop_negate)
  have hparts : (cs.map negate).flatMap disjunctionParts =
      (cs.flatMap conjunctionParts).map negate := by
    rw [List.flatMap_map, List.map_flatMap]
    exact List.flatMap_congr fun c _ => disjunctionParts_negate c
  rw [simplifyNode, simplifyNode, hdecides, hparts]
  split
  · exact negate_false
  · rcases cs.flatMap conjunctionParts with _ | ⟨c, _ | ⟨d, rest⟩⟩
    · exact negate_true
    · rfl
    · exact negate_and

/-- The case of a disjunction is the one of the conjunction of the negated parts, negated. -/
theorem negate_simplifyNode_or (cs : List Condition) :
    (simplifyNode (.or cs)).negate = simplifyNode (.and (cs.map negate)) := by
  have h := negate_simplifyNode_and (cs.map negate)
  rw [map_negate_negate fun c _ => negate_negate c] at h
  rw [← h, negate_negate]

theorem negate_simplifyNode (c : Condition) :
    (simplifyNode c).negate = simplifyNode c.negate := by
  cases c with
  | true | false | literal l => simp [simplifyNode]
  | and parts => rw [negate_simplifyNode_and, negate_and]
  | or parts => rw [negate_simplifyNode_or, negate_or]
  | «forall» ps body | «exists» ps body =>
      simp only [simplifyNode, apply_ite negate, negate_forall, negate_exists, isConstant_negate]

theorem map_negate_simplified (h : ∀ c ∈ cs, c.simplified.negate = c.negate.simplified) :
    (cs.map simplified).map negate = (cs.map negate).map simplified := by
  rw [List.map_map, List.map_map]
  exact List.map_congr_left h

theorem negate_simplified (c : Condition) : c.simplified.negate = c.negate.simplified := by
  induction c with
  | true | false | literal l => simp
  | and parts ih =>
      rw [simplified_and, negate_simplifyNode, negate_and, map_negate_simplified ih, negate_and,
        simplified_or]
  | or parts ih =>
      rw [simplified_or, negate_simplifyNode, negate_or, map_negate_simplified ih, negate_or,
        simplified_and]
  | «forall» ps body ih =>
      rw [simplified_forall, negate_simplifyNode, negate_forall, ih, negate_forall,
        simplified_exists]
  | «exists» ps body ih =>
      rw [simplified_exists, negate_simplifyNode, negate_exists, ih, negate_exists,
        simplified_forall]

/-- Simplification gives conditions of one form, which simplifying them again does not change. The
simplified form of the negation is the negation of the simplified form. -/
theorem simplified_form_is_kept_by_negation (c : Condition) :
    c.simplified.IsSimplified ∧ c.simplified.simplified = c.simplified ∧
      c.simplified.negate = c.negate.simplified ∧ c.negate.negate = c :=
  have hform := isSimplified_simplified c
  ⟨hform, hform.simplified_eq, negate_simplified c, negate_negate c⟩

end Condition
end FinitePlanning
