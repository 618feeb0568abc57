import Mathlib.Data.List.Flatten
import Mathlib.Data.List.Perm.Subperm
import FinitePlanning.Proofs.Condition.Simplify

/-!
The connectives, the free names and the quantified variables of conditions. Rewriting a condition
adds none of them, so that variables that are quantified once and are not free stay so.
-/

namespace FinitePlanning

/-- The connectives besides conjunction that the conditions of a fragment may have. -/
structure Fragment where
  universal : Bool
  disjunction : Bool
  existential : Bool

namespace Fragment

def full : Fragment := ⟨true, true, true⟩

def withoutUniversals : Fragment := ⟨false, true, true⟩

def existentialConjunctions : Fragment := ⟨false, false, true⟩

def conjunctions : Fragment := ⟨false, false, false⟩

/-- Whether the top node of a condition is allowed. -/
def Allows (k : Fragment) : Condition → Prop
  | .or _ => k.disjunction = true
  | .forall .. => k.universal = true
  | .exists .. => k.existential = true
  | _ => True

end Fragment

namespace Condition

variable {k k' : Fragment} {c d : Condition} {cs ds : List Condition} {ps : List Parameter}
  {body : Condition} {x : String}

/-! ### Fragments -/

/-- All nodes of a condition are allowed. -/
def InFragment (k : Fragment) (c : Condition) : Prop := ∀ d ∈ c.walk, k.Allows d

theorem inFragment_iff :
    c.InFragment k ↔ k.Allows c ∧ ∀ d ∈ c.parts, d.InFragment k :=
  forall_mem_walk

theorem inFragment_leaf (hparts : c.parts = []) : c.InFragment k ↔ k.Allows c := by
  rw [inFragment_iff, hparts]
  exact and_iff_left (List.forall_mem_nil _)

@[simp] theorem inFragment_true : Condition.true.InFragment k := (inFragment_leaf rfl).mpr trivial

@[simp] theorem inFragment_false : Condition.false.InFragment k := (inFragment_leaf rfl).mpr trivial

@[simp] theorem inFragment_literal (l : Literal) : (Condition.literal l).InFragment k :=
  (inFragment_leaf rfl).mpr trivial

@[simp] theorem inFragment_and :
    (Condition.and cs).InFragment k ↔ ∀ c ∈ cs, c.InFragment k :=
  inFragment_iff.trans (and_iff_right trivial)

@[simp] theorem inFragment_or : (Condition.or cs).InFragment k ↔
    k.disjunction = Bool.true ∧ ∀ c ∈ cs, c.InFragment k :=
  inFragment_iff

@[simp] theorem inFragment_forall : (Condition.forall ps body).InFragment k ↔
    k.universal = Bool.true ∧ body.InFragment k :=
  inFragment_iff.trans (and_congr_right' List.forall_mem_singleton)

@[simp] theorem inFragment_exists : (Condition.exists ps body).InFragment k ↔
    k.existential = Bool.true ∧ body.InFragment k :=
  inFragment_iff.trans (and_congr_right' List.forall_mem_singleton)

theorem InFragment.mono (h : c.InFragment k) (hk : ∀ d ∈ c.walk, k.Allows d → k'.Allows d) :
    c.InFragment k' :=
  fun d hd => hk d hd (h d hd)

theorem inFragment_withoutUniversals (h : c.hasUniversalPart = Bool.false) :
    c.InFragment .withoutUniversals := by
  intro d hd
  cases d with
  | «forall» =>
      rw [hasUniversalPart, List.any_eq_false] at h
      exact absurd rfl (h _ hd)
  | true | false | literal _ | and _ => trivial
  | or _ | «exists» _ _ => rfl

theorem InFragment.withoutDisjunction (h : c.InFragment .withoutUniversals)
    (hdisjunction : c.hasDisjunction = Bool.false) : c.InFragment .existentialConjunctions := by
  refine h.mono fun d hd hk => ?_
  cases d with
  | or =>
      rw [hasDisjunction, List.any_eq_false] at hdisjunction
      exact absurd rfl (hdisjunction _ hd)
  | «forall» => cases hk
  | «exists» => rfl
  | true | false | literal _ | and _ => trivial

theorem InFragment.withoutExistentialPart (h : c.InFragment .existentialConjunctions)
    (hexistential : c.hasExistentialPart = Bool.false) : c.InFragment .conjunctions := by
  refine h.mono fun d hd hk => ?_
  cases d with
  | «exists» =>
      rw [hasExistentialPart, List.any_eq_false] at hexistential
      exact absurd rfl (hexistential _ hd)
  | or _ | «forall» => cases hk
  | true | false | literal _ | and _ => trivial

theorem InFragment.toExistential (h : c.InFragment .conjunctions) :
    c.InFragment .existentialConjunctions := by
  refine h.mono fun d _ hk => ?_
  cases d with
  | or _ | «forall» => cases hk
  | «exists» => rfl
  | true | false | literal _ | and _ => trivial

theorem InFragment.mapBottomUp {f : Condition → Condition} (h : c.InFragment k)
    (hf : ∀ c, c.InFragment k → (f c).InFragment k) : (c.mapBottomUp f).InFragment k := by
  induction c with
  | true => exact mapBottomUp_true ▸ hf _ h
  | false => exact mapBottomUp_false ▸ hf _ h
  | literal l => exact mapBottomUp_literal l ▸ hf _ h
  | and parts ih =>
      rw [inFragment_and] at h
      exact mapBottomUp_and _ ▸ hf _ (inFragment_and.mpr
        (List.forall_mem_map.mpr fun c hc => ih c hc (h c hc)))
  | or parts ih =>
      rw [inFragment_or] at h
      exact mapBottomUp_or _ ▸ hf _ (inFragment_or.mpr
        ⟨h.1, List.forall_mem_map.mpr fun c hc => ih c hc (h.2 c hc)⟩)
  | «forall» ps body ih =>
      rw [inFragment_forall] at h
      exact mapBottomUp_forall _ _ ▸ hf _ (inFragment_forall.mpr ⟨h.1, ih h.2⟩)
  | «exists» ps body ih =>
      rw [inFragment_exists] at h
      exact mapBottomUp_exists _ _ ▸ hf _ (inFragment_exists.mpr ⟨h.1, ih h.2⟩)

theorem InFragment.of_mem_conjunctionParts (h : c.InFragment k) (hd : d ∈ c.conjunctionParts) :
    d.InFragment k := by
  cases c with
  | true => cases hd
  | and parts => exact inFragment_and.mp h d hd
  | false | literal _ | or _ | «forall» _ _ | «exists» _ _ => exact List.mem_singleton.mp hd ▸ h

theorem InFragment.of_mem_disjunctionParts (h : c.InFragment k) (hd : d ∈ c.disjunctionParts) :
    d.InFragment k := by
  cases c with
  | false => cases hd
  | or parts => exact (inFragment_or.mp h).2 d hd
  | true | literal _ | and _ | «forall» _ _ | «exists» _ _ => exact List.mem_singleton.mp hd ▸ h

theorem InFragment.simplifyNode (h : c.InFragment k) : c.simplifyNode.InFragment k := by
  cases c with
  | true | false | literal _ => exact h
  | and parts =>
      rw [inFragment_and] at h
      have hall : ∀ d ∈ parts.flatMap conjunctionParts, d.InFragment k := by
        intro d hd
        obtain ⟨p, hp, hd⟩ := List.mem_flatMap.mp hd
        exact (h p hp).of_mem_conjunctionParts hd
      rw [Condition.simplifyNode]
      split
      · exact inFragment_false
      · split
        · exact inFragment_true
        next d hone => exact hall d (hone ▸ List.mem_singleton_self d)
        · exact inFragment_and.mpr hall
  | or parts =>
      rw [inFragment_or] at h
      have hall : ∀ d ∈ parts.flatMap disjunctionParts, d.InFragment k := by
        intro d hd
        obtain ⟨p, hp, hd⟩ := List.mem_flatMap.mp hd
        exact (h.2 p hp).of_mem_disjunctionParts hd
      rw [Condition.simplifyNode]
      split
      · exact inFragment_true
      · split
        · exact inFragment_false
        next d hone => exact hall d (hone ▸ List.mem_singleton_self d)
        · exact inFragment_or.mpr ⟨h.1, hall⟩
  | «forall» ps body =>
      rw [Condition.simplifyNode]
      split
      · exact (inFragment_forall.mp h).2
      · exact h
  | «exists» ps body =>
      rw [Condition.simplifyNode]
      split
      · exact (inFragment_exists.mp h).2
      · exact h

theorem InFragment.simplified (h : c.InFragment k) : c.simplified.InFragment k :=
  h.mapBottomUp fun _ => simplifyNode

/-- Conjunctions quantify no variables. -/
theorem InFragment.quantifiedParameters_eq_nil (h : c.InFragment .conjunctions) :
    c.quantifiedParameters = [] := by
  refine List.flatMap_eq_nil_iff.mpr fun d hd => ?_
  cases d with
  | true | false | literal _ | and _ | or _ => rfl
  | «forall» | «exists» => cases h _ hd

/-! ### Free names -/

/-- A name is an argument of a literal and not bound by a quantifier above it. -/
inductive IsFree (x : String) : Condition → Prop where
  | literal {l : Literal} (h : x ∈ l.atom.args) : IsFree x (.literal l)
  | and {cs : List Condition} {c : Condition} (hc : c ∈ cs) (h : IsFree x c) : IsFree x (.and cs)
  | or {cs : List Condition} {c : Condition} (hc : c ∈ cs) (h : IsFree x c) : IsFree x (.or cs)
  | «forall» {ps : List Parameter} {body : Condition} (hx : x ∉ ps.map (·.name))
      (h : IsFree x body) : IsFree x (.forall ps body)
  | «exists» {ps : List Parameter} {body : Condition} (hx : x ∉ ps.map (·.name))
      (h : IsFree x body) : IsFree x (.exists ps body)

@[simp] theorem not_isFree_true : ¬ Condition.true.IsFree x := nofun

@[simp] theorem not_isFree_false : ¬ Condition.false.IsFree x := nofun

@[simp] theorem isFree_literal {l : Literal} : (Condition.literal l).IsFree x ↔ x ∈ l.atom.args :=
  ⟨fun | .literal h => h, .literal⟩

@[simp] theorem isFree_and : (Condition.and cs).IsFree x ↔ ∃ c ∈ cs, c.IsFree x :=
  ⟨fun | .and hc h => ⟨_, hc, h⟩, fun ⟨_, hc, h⟩ => .and hc h⟩

@[simp] theorem isFree_or : (Condition.or cs).IsFree x ↔ ∃ c ∈ cs, c.IsFree x :=
  ⟨fun | .or hc h => ⟨_, hc, h⟩, fun ⟨_, hc, h⟩ => .or hc h⟩

@[simp] theorem isFree_forall :
    (Condition.forall ps body).IsFree x ↔ x ∉ ps.map (·.name) ∧ body.IsFree x :=
  ⟨fun | .forall hx h => ⟨hx, h⟩, fun ⟨hx, h⟩ => .forall hx h⟩

@[simp] theorem isFree_exists :
    (Condition.exists ps body).IsFree x ↔ x ∉ ps.map (·.name) ∧ body.IsFree x :=
  ⟨fun | .exists hx h => ⟨hx, h⟩, fun ⟨hx, h⟩ => .exists hx h⟩

theorem IsFree.exists_literal (h : c.IsFree x) : ∃ l ∈ c.literals, x ∈ l.atom.args := by
  induction h with
  | literal h => exact ⟨_, literals_literal _ ▸ List.mem_singleton_self _, h⟩
  | and hc _ ih =>
      obtain ⟨l, hl, hx⟩ := ih
      exact ⟨l, literals_and _ ▸ List.mem_flatMap.mpr ⟨_, hc, hl⟩, hx⟩
  | or hc _ ih =>
      obtain ⟨l, hl, hx⟩ := ih
      exact ⟨l, literals_or _ ▸ List.mem_flatMap.mpr ⟨_, hc, hl⟩, hx⟩
  | «forall» _ _ ih =>
      rw [literals_forall]
      exact ih
  | «exists» _ _ ih =>
      rw [literals_exists]
      exact ih

/-- The names that occur are free or quantified. -/
theorem isFree_or_mem_quantified {l : Literal} (hl : l ∈ c.literals) (hx : x ∈ l.atom.args) :
    c.IsFree x ∨ x ∈ c.quantifiedParameters.map (·.name) := by
  induction c with
  | true | false => simp at hl
  | literal m =>
      obtain rfl := List.mem_singleton.mp (literals_literal m ▸ hl)
      exact .inl (.literal hx)
  | and parts ih =>
      obtain ⟨c, hc, hl⟩ := List.mem_flatMap.mp (literals_and _ ▸ hl)
      rw [quantifiedParameters_and, List.map_flatMap]
      exact (ih c hc hl).imp (.and hc) fun hq => List.mem_flatMap.mpr ⟨c, hc, hq⟩
  | or parts ih =>
      obtain ⟨c, hc, hl⟩ := List.mem_flatMap.mp (literals_or _ ▸ hl)
      rw [quantifiedParameters_or, List.map_flatMap]
      exact (ih c hc hl).imp (.or hc) fun hq => List.mem_flatMap.mpr ⟨c, hc, hq⟩
  | «forall» ps body ih =>
      rw [quantifiedParameters_forall, List.map_append, List.mem_append, isFree_forall]
      have := ih (literals_forall ps body ▸ hl)
      tauto
  | «exists» ps body ih =>
      rw [quantifiedParameters_exists, List.map_append, List.mem_append, isFree_exists]
      have := ih (literals_exists ps body ▸ hl)
      tauto

/-- The quantified variables are different from each other and from all free names. -/
structure IsRectified (c : Condition) : Prop where
  nodup : (c.quantifiedParameters.map (·.name)).Nodup
  bound : ∀ x ∈ c.quantifiedParameters.map (·.name), ¬ c.IsFree x

theorem IsRectified.of_exists (h : (Condition.exists ps body).IsRectified) : body.IsRectified := by
  obtain ⟨hnodup, hbound⟩ := h
  rw [quantifiedParameters_exists, List.map_append] at hnodup hbound
  obtain ⟨-, hbody, hdisjoint⟩ := List.nodup_append.mp hnodup
  refine ⟨hbody, fun x hx hfree => hbound x (List.mem_append_right _ hx) ?_⟩
  exact isFree_exists.mpr ⟨fun hp => hdisjoint x hp x hx rfl, hfree⟩

/-! ### Shrinking -/

theorem subperm_flatMap {α β γ : Type} {f : α → List γ} {g : β → List γ} {as : List α}
    {bs : List β} (h : List.Forall₂ (fun a b => (f a).Subperm (g b)) as bs) :
    (as.flatMap f).Subperm (bs.flatMap g) := by
  induction h with
  | nil => exact .refl _
  | cons h _ ih => exact h.append ih

theorem subperm_of_mem_flatMap {α β : Type} {f : α → List β} {l : List α} {a : α} (ha : a ∈ l) :
    (f a).Subperm (l.flatMap f) := by
  have h := (List.singleton_sublist.mpr ha).flatMap f
  rw [List.flatMap_singleton] at h
  exact h.subperm

theorem flatMap_conjunctionParts (c : Condition) :
    c.conjunctionParts.flatMap quantifiedParameters = c.quantifiedParameters := by
  cases c <;> simp [conjunctionParts]

theorem flatMap_disjunctionParts (c : Condition) :
    c.disjunctionParts.flatMap quantifiedParameters = c.quantifiedParameters := by
  cases c <;> simp [disjunctionParts]

theorem flatMap_literals_conjunctionParts (c : Condition) :
    c.conjunctionParts.flatMap literals = c.literals := by
  cases c <;> simp [conjunctionParts]

theorem flatMap_literals_disjunctionParts (c : Condition) :
    c.disjunctionParts.flatMap literals = c.literals := by
  cases c <;> simp [disjunctionParts]

/-- Another condition has no further literals, free names or quantified variables, each of which it
quantifies at most as often. -/
structure Shrinks (c d : Condition) : Prop where
  literals : d.literals ⊆ c.literals
  quantified : d.quantifiedParameters.Subperm c.quantifiedParameters
  free : ∀ x, d.IsFree x → c.IsFree x

namespace Shrinks

theorem refl (c : Condition) : Shrinks c c :=
  ⟨List.Subset.refl _, .refl _, fun _ => id⟩

theorem trans {e : Condition} (h : Shrinks c d) (h' : Shrinks d e) : Shrinks c e :=
  ⟨List.Subset.trans h'.literals h.literals, h'.quantified.trans h.quantified,
    fun x hx => h.free x (h'.free x hx)⟩

theorem to_true : Shrinks c .true :=
  ⟨literals_true ▸ List.nil_subset _, quantifiedParameters_true ▸ List.nil_subperm,
    fun _ hx => absurd hx not_isFree_true⟩

theorem to_false : Shrinks c .false :=
  ⟨literals_false ▸ List.nil_subset _, quantifiedParameters_false ▸ List.nil_subperm,
    fun _ hx => absurd hx not_isFree_false⟩

section

variable (h : List.Forall₂ Shrinks cs ds)
include h

theorem literals_subset : ds.flatMap Condition.literals ⊆ cs.flatMap Condition.literals := by
  intro l hl
  obtain ⟨d, hd, hl⟩ := List.mem_flatMap.mp hl
  obtain ⟨c, hc, hcd⟩ := exists_of_mem_forall₂_right h hd
  exact List.mem_flatMap.mpr ⟨c, hc, hcd.literals hl⟩

theorem quantified_subperm :
    (ds.flatMap quantifiedParameters).Subperm (cs.flatMap quantifiedParameters) :=
  subperm_flatMap (h.flip.imp fun _ _ h => h.quantified)

theorem exists_isFree (hx : ∃ d ∈ ds, d.IsFree x) : ∃ c ∈ cs, c.IsFree x := by
  obtain ⟨d, hd, hx⟩ := hx
  obtain ⟨c, hc, hcd⟩ := exists_of_mem_forall₂_right h hd
  exact ⟨c, hc, hcd.free x hx⟩

theorem and : Shrinks (.and cs) (.and ds) :=
  ⟨by simpa using literals_subset h, by simpa using quantified_subperm h,
    by simpa using fun x d hd hx => exists_isFree h ⟨d, hd, hx⟩⟩

theorem or : Shrinks (.or cs) (.or ds) :=
  ⟨by simpa using literals_subset h, by simpa using quantified_subperm h,
    by simpa using fun x d hd hx => exists_isFree h ⟨d, hd, hx⟩⟩

end

theorem «forall» (h : Shrinks body d) : Shrinks (.forall ps body) (.forall ps d) :=
  ⟨by simpa using h.literals,
    by simpa using (List.Subperm.refl ps).append h.quantified,
    fun x hx => isFree_forall.mpr ((isFree_forall.mp hx).imp_right (h.free x))⟩

theorem «exists» (h : Shrinks body d) : Shrinks (.exists ps body) (.exists ps d) :=
  ⟨by simpa using h.literals,
    by simpa using (List.Subperm.refl ps).append h.quantified,
    fun x hx => isFree_exists.mpr ((isFree_exists.mp hx).imp_right (h.free x))⟩

/-- The order of the parts does not matter. -/
theorem of_perm (h : cs.Perm ds) : Shrinks (.and cs) (.and ds) where
  literals := by
    rw [literals_and, literals_and]
    exact (h.symm.flatMap_right _).subset
  quantified := by
    rw [quantifiedParameters_and, quantifiedParameters_and]
    exact (h.symm.flatMap_right _).subperm
  free x hx := isFree_and.mpr ((isFree_and.mp hx).imp fun _ hc => ⟨h.mem_iff.mpr hc.1, hc.2⟩)

theorem of_mem_and (hc : c ∈ cs) : Shrinks (.and cs) c where
  literals := literals_and _ ▸ fun _ hl => List.mem_flatMap.mpr ⟨c, hc, hl⟩
  quantified := quantifiedParameters_and _ ▸ subperm_of_mem_flatMap hc
  free _ hx := isFree_and.mpr ⟨c, hc, hx⟩

theorem of_mem_or (hc : c ∈ cs) : Shrinks (.or cs) c where
  literals := literals_or _ ▸ fun _ hl => List.mem_flatMap.mpr ⟨c, hc, hl⟩
  quantified := quantifiedParameters_or _ ▸ subperm_of_mem_flatMap hc
  free _ hx := isFree_or.mpr ⟨c, hc, hx⟩

/-- The scope of a quantifier may gain no names. -/
theorem of_dropped (hbody : ∀ x ∈ ps.map (·.name), ¬ body.IsFree x) :
    Shrinks (.forall ps body) body ∧ Shrinks (.exists ps body) body := by
  have hquantified : body.quantifiedParameters.Subperm (ps ++ body.quantifiedParameters) :=
    (List.sublist_append_right ps _).subperm
  exact ⟨⟨literals_forall ps body ▸ List.Subset.refl _, quantifiedParameters_forall ps body ▸
      hquantified, fun x hx => isFree_forall.mpr ⟨fun hp => hbody x hp hx, hx⟩⟩,
    ⟨literals_exists ps body ▸ List.Subset.refl _, quantifiedParameters_exists ps body ▸
      hquantified, fun x hx => isFree_exists.mpr ⟨fun hp => hbody x hp hx, hx⟩⟩⟩

theorem exists_nil : Shrinks c (.exists [] c) where
  literals := literals_exists [] c ▸ List.Subset.refl _
  quantified := quantifiedParameters_exists [] c ▸ .refl _
  free _ hx := (isFree_exists.mp hx).2

theorem exists_exists {qs : List Parameter} :
    Shrinks (.exists ps (.exists qs c)) (.exists (ps ++ qs) c) where
  literals := by simp
  quantified := by simp [List.Subperm.refl]
  free x hx := by simpa [and_assoc] using hx

theorem mapBottomUp {f : Condition → Condition} (hf : ∀ c, Shrinks c (f c)) (c : Condition) :
    Shrinks c (c.mapBottomUp f) := by
  induction c with
  | true => exact mapBottomUp_true ▸ hf _
  | false => exact mapBottomUp_false ▸ hf _
  | literal l => exact mapBottomUp_literal l ▸ hf _
  | and parts ih =>
      rw [mapBottomUp_and]
      exact (and (List.forall₂_map_right_iff.mpr (List.forall₂_same.mpr ih))).trans (hf _)
  | or parts ih =>
      rw [mapBottomUp_or]
      exact (or (List.forall₂_map_right_iff.mpr (List.forall₂_same.mpr ih))).trans (hf _)
  | «forall» ps body ih => exact mapBottomUp_forall ps body ▸ ih.forall.trans (hf _)
  | «exists» ps body ih => exact mapBottomUp_exists ps body ▸ ih.exists.trans (hf _)

theorem and_conjunctionParts (parts : List Condition) :
    Shrinks (.and parts) (.and (parts.flatMap conjunctionParts)) where
  literals := by
    simp only [literals_and, List.flatMap_assoc, flatMap_literals_conjunctionParts]
    exact List.Subset.refl _
  quantified := by
    simp only [quantifiedParameters_and, List.flatMap_assoc, flatMap_conjunctionParts]
    exact .refl _
  free x hx := by
    obtain ⟨d, hd, hx⟩ := isFree_and.mp hx
    obtain ⟨c, hc, hd⟩ := List.mem_flatMap.mp hd
    refine isFree_and.mpr ⟨c, hc, ?_⟩
    cases c with
    | true => cases hd
    | and parts => exact isFree_and.mpr ⟨d, hd, hx⟩
    | false | literal _ | or _ | «forall» _ _ | «exists» _ _ =>
        exact List.mem_singleton.mp hd ▸ hx

theorem or_disjunctionParts (parts : List Condition) :
    Shrinks (.or parts) (.or (parts.flatMap disjunctionParts)) where
  literals := by
    simp only [literals_or, List.flatMap_assoc, flatMap_literals_disjunctionParts]
    exact List.Subset.refl _
  quantified := by
    simp only [quantifiedParameters_or, List.flatMap_assoc, flatMap_disjunctionParts]
    exact .refl _
  free x hx := by
    obtain ⟨d, hd, hx⟩ := isFree_or.mp hx
    obtain ⟨c, hc, hd⟩ := List.mem_flatMap.mp hd
    refine isFree_or.mpr ⟨c, hc, ?_⟩
    cases c with
    | false => cases hd
    | or parts => exact isFree_or.mpr ⟨d, hd, hx⟩
    | true | literal _ | and _ | «forall» _ _ | «exists» _ _ =>
        exact List.mem_singleton.mp hd ▸ hx

/-- A quantifier is only dropped if its variables do not occur. -/
theorem not_isFree_of_dropped (hdrop : (ps.isEmpty || body.isConstant) = Bool.true) :
    ∀ x ∈ ps.map (·.name), ¬ body.IsFree x := by
  rcases (Bool.or_eq_true _ _).mp hdrop with hps | hconstant
  · rw [List.isEmpty_iff.mp hps]
    exact List.forall_mem_nil _
  · intro x _ hx
    cases body with
    | true | false => cases hx
    | literal _ | and _ | or _ | «forall» _ _ | «exists» _ _ => cases hconstant

theorem simplifyNode (c : Condition) : Shrinks c c.simplifyNode := by
  cases c with
  | true | false | literal _ => exact refl _
  | and parts =>
      rw [Condition.simplifyNode]
      split
      · exact to_false
      · refine (and_conjunctionParts parts).trans ?_
        split
        · exact to_true
        next d hone => exact of_mem_and (hone ▸ List.mem_singleton_self d)
        · exact refl _
  | or parts =>
      rw [Condition.simplifyNode]
      split
      · exact to_true
      · refine (or_disjunctionParts parts).trans ?_
        split
        · exact to_false
        next d hone => exact of_mem_or (hone ▸ List.mem_singleton_self d)
        · exact refl _
  | «forall» ps body =>
      rw [Condition.simplifyNode]
      split
      next hdrop => exact (of_dropped (not_isFree_of_dropped hdrop)).1
      · exact refl _
  | «exists» ps body =>
      rw [Condition.simplifyNode]
      split
      next hdrop => exact (of_dropped (not_isFree_of_dropped hdrop)).2
      · exact refl _

theorem simplified (c : Condition) : Shrinks c c.simplified :=
  mapBottomUp simplifyNode c

theorem isRectified (h : Shrinks c d) (hc : c.IsRectified) : d.IsRectified where
  nodup := by
    obtain ⟨ps, hperm, hps⟩ := h.quantified
    exact (hperm.map (·.name)).nodup_iff.mp ((hps.map (·.name)).nodup hc.nodup)
  bound x hx hfree := hc.bound x (List.map_subset _ h.quantified.subset hx) (h.free x hfree)

end Shrinks

/-- Another condition in a fragment, with no further literals, free names or quantified variables. -/
structure ShrinksTo (k : Fragment) (c d : Condition) : Prop extends Shrinks c d where
  fragment : d.InFragment k

theorem ShrinksTo.of_mem_disjunctionParts {e : Condition} (h : ShrinksTo k c d)
    (he : e ∈ d.disjunctionParts) : ShrinksTo k c e := by
  refine ⟨h.toShrinks.trans ?_, h.fragment.of_mem_disjunctionParts he⟩
  cases d with
  | false => cases he
  | or parts => exact .of_mem_or he
  | true | literal _ | and _ | «forall» _ _ | «exists» _ _ =>
      exact List.mem_singleton.mp he ▸ .refl _

theorem ShrinksTo.simplified (h : ShrinksTo k c d) : ShrinksTo k c d.simplified :=
  ⟨h.toShrinks.trans (.simplified d), h.fragment.simplified⟩

end Condition
end FinitePlanning
