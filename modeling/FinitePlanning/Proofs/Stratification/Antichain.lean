import Mathlib.Data.List.Induction
import Mathlib.Data.List.Nodup
import FinitePlanning.Proofs.Collections
import FinitePlanning.Proofs.Stratification.Layers
import FinitePlanning.Stratification

/-!
Simplification of axioms keeps enough of them: whatever an axiom derives without requiring its own
effect, an axiom that is kept derives as well. The axioms that are kept are those that no other
axiom dominates, the first one of those that dominate each other.
-/

namespace FinitePlanning
namespace GroundAxiom

variable {axioms kept : List GroundAxiom} {x y z : GroundAxiom}

theorem dominates_iff : x.dominates y = true ↔ ∀ l ∈ x.condition, l ∈ y.condition := by
  simp [dominates]

theorem dominates_refl (x : GroundAxiom) : x.dominates x = true :=
  dominates_iff.mpr fun _ => id

theorem dominates_trans (h : x.dominates y = true) (h' : y.dominates z = true) :
    x.dominates z = true :=
  dominates_iff.mpr fun l hl => dominates_iff.mp h' l (dominates_iff.mp h l hl)

/-- Some axiom of the list dominates the given one. -/
def Covers (kept : List GroundAxiom) (y : GroundAxiom) : Prop :=
  ∃ x ∈ kept, x.dominates y = true

theorem covers_insertUndominated (h : Covers kept y ∨ y = z) :
    Covers (insertUndominated kept z) y := by
  rw [insertUndominated]
  split
  next hany =>
    refine h.elim id fun he => ?_
    obtain ⟨x, hx, hdominates⟩ := List.any_eq_true.mp hany
    exact ⟨x, hx, he ▸ hdominates⟩
  next =>
    have hnew : z ∈ kept.filter (!z.dominates ·) ++ [z] :=
      List.mem_append_right _ List.mem_cons_self
    rcases h with ⟨x, hx, hdominates⟩ | rfl
    · cases hz : z.dominates x with
      | true => exact ⟨z, hnew, dominates_trans hz hdominates⟩
      | false =>
          have hkept : x ∈ kept.filter (!z.dominates ·) := List.mem_filter.mpr ⟨hx, by rw [hz]; rfl⟩
          exact ⟨x, List.mem_append_left _ hkept, hdominates⟩
    · exact ⟨y, hnew, dominates_refl y⟩

theorem covers_foldl (h : Covers kept y ∨ y ∈ axioms) :
    Covers (axioms.foldl insertUndominated kept) y := by
  induction axioms generalizing kept with
  | nil => exact h.resolve_right List.not_mem_nil
  | cons z axioms ih =>
      refine ih ?_
      rcases h with h | h
      · exact .inl (covers_insertUndominated (.inl h))
      · exact (List.mem_cons.mp h).imp_left fun he => covers_insertUndominated (.inr he)

@[simp] theorem isCircular_iff : x.isCircular = true ↔ x.effect.positive ∈ x.condition := by
  simp [isCircular]

theorem effect_ordered (x : GroundAxiom) : x.ordered.effect = x.effect := rfl

theorem mem_condition_ordered {l : Literal} : l ∈ x.ordered.condition ↔ l ∈ x.condition :=
  mem_orderedSet

/-- An axiom that does not require its own effect is dominated by one that is kept. -/
theorem exists_mem_simplify (hy : y ∈ axioms) (hc : y.effect.positive ∉ y.condition) :
    ∃ x ∈ simplify axioms, ∀ l ∈ x.condition, l ∈ y.condition := by
  have hnot : (!y.ordered.isCircular) = true := by
    rw [Bool.not_eq_true', Bool.eq_false_iff, Ne, isCircular_iff, effect_ordered,
      mem_condition_ordered]
    exact hc
  have hmem : y.ordered ∈ (axioms.map ordered).filter (!·.isCircular) :=
    List.mem_filter.mpr ⟨List.mem_map_of_mem hy, hnot⟩
  have hcovers : Covers (simplify axioms) y.ordered := covers_foldl (.inr hmem)
  obtain ⟨x, hx, hdominates⟩ := hcovers
  exact ⟨x, hx, fun l hl => mem_condition_ordered.mp (dominates_iff.mp hdominates l hl)⟩

/-! ### Marking

The useless axioms of a derived atom may also be found by marking those that are dominated by an
axiom that is not marked itself. The positions of the axioms that require a literal form an unordered
set.
-/

/-- An axiom and its position. -/
abbrev Entry := GroundAxiom × Nat

/-- The axioms that do not require their own effect. -/
def candidates (entries : List Entry) : List Entry :=
  entries.filter (!·.1.isCircular)

/-- The positions of the candidates that require a literal. -/
def requiring (entries : List Entry) (l : Literal) : List Nat :=
  ((candidates entries).filter (l ∈ ·.1.condition)).map (·.2)

/-- The positions of the candidates that require some literals. -/
def requiringAll (entries : List Entry) (first : Literal) (rest : List Literal) : List Nat :=
  rest.foldl (fun positions l => positions.filter (· ∈ requiring entries l)) (requiring entries first)

/-- Marks the axioms at some positions, but for one. -/
def mark (marked : Array Bool) (i : Nat) (positions : List Nat) : Array Bool :=
  positions.foldl (fun marked j => if j = i then marked else marked.setIfInBounds j true) marked

/-- Marks what the axioms that are not marked dominate, axiom by axiom. Stops at an axiom without
conditions. -/
def markDominated (order : IterationOrder Nat) (entries : List Entry) :
    List Entry → Array Bool → Except GroundAxiom (Array Bool)
  | [], marked => .ok marked
  | (x, i) :: rest, marked =>
    if marked.getD i false then markDominated order entries rest marked
    else match x.condition with
      | [] => .error x
      | l :: ls =>
        markDominated order entries rest (mark marked i (order.list i (requiringAll entries l ls)))

/-- The axioms that are not marked, or the one at which marking stopped. -/
def unmarked (entries : List Entry) : Except GroundAxiom (Array Bool) → List GroundAxiom
  | .error x => [x]
  | .ok marked => (entries.filter fun e => !marked.getD e.2 false).map (·.1)

/-- The axioms of a derived atom without the useless ones, which are found by marking. -/
def simplifyByMarking (order : IterationOrder Nat) (axioms : List GroundAxiom) :
    List GroundAxiom :=
  let entries := (axioms.map ordered).zipIdx
  unmarked entries
    (markDominated order entries entries (entries.map (·.1.isCircular)).toArray)

section Marking

variable {entries done rest : List Entry} {e f : Entry} {i j : Nat} {marked : Array Bool}

/-- Whatever dominates the axiom of the entry is dominated by it and does not come before it. -/
def IsUseful (entries : List Entry) (e : Entry) : Prop :=
  ∀ f ∈ entries, f.1.dominates e.1 = true → e.1.dominates f.1 = true ∧ e.2 ≤ f.2

instance : DecidablePred (IsUseful entries) := fun _ =>
  inferInstanceAs (Decidable (∀ f ∈ entries, _ → _ ∧ _))

theorem isUseful_append_singleton :
    IsUseful (entries ++ [f]) e ↔ IsUseful entries e ∧
      (f.1.dominates e.1 = true → e.1.dominates f.1 = true ∧ e.2 ≤ f.2) := by
  rw [IsUseful, List.forall_mem_append, List.forall_mem_singleton]
  rfl

/-- An entry that an earlier one dominates is of no use, and makes no other one useless. -/
theorem filter_isUseful_of_dominated (hmem : f ∈ entries)
    (hdominates : f.1.dominates e.1 = true) (hlt : f.2 < e.2) :
    (entries ++ [e]).filter (IsUseful (entries ++ [e]) ·) = entries.filter (IsUseful entries ·) := by
  have hnot : ¬IsUseful (entries ++ [e]) e := fun he =>
    absurd (he f (List.mem_append_left _ hmem) hdominates).2 (Nat.not_le.mpr hlt)
  rw [List.filter_append, List.filter_cons_of_neg (by simpa using hnot), List.filter_nil,
    List.append_nil]
  refine List.filter_congr fun g hg => decide_eq_decide.mpr ?_
  rw [isUseful_append_singleton, and_iff_left_iff_imp]
  intro huseful heg
  -- then `f` dominates `g` as well, so that `g` dominates `f` and comes first
  obtain ⟨hgf, hle⟩ := huseful f hmem (dominates_trans hdominates heg)
  exact ⟨dominates_trans hgf hdominates, Nat.le_trans hle (Nat.le_of_lt hlt)⟩

/-- An entry that is not dominated makes those useless that it dominates. -/
theorem filter_isUseful_of_not_dominated (h : ∀ f ∈ entries, f.1.dominates e.1 = false) :
    (entries ++ [e]).filter (IsUseful (entries ++ [e]) ·) =
      (entries.filter (IsUseful entries ·)).filter (!e.1.dominates ·.1) ++ [e] := by
  have huseful : IsUseful (entries ++ [e]) e := by
    refine isUseful_append_singleton.mpr ⟨fun f hf hdominates => ?_, fun hself =>
      ⟨hself, Nat.le_refl _⟩⟩
    rw [h f hf] at hdominates
    cases hdominates
  rw [List.filter_append, List.filter_cons_of_pos (by simpa using huseful), List.filter_nil,
    List.filter_filter]
  refine congrArg (· ++ [e]) (List.filter_congr fun g hg => ?_)
  rw [Bool.eq_iff_iff, Bool.and_eq_true, decide_eq_true_eq, decide_eq_true_eq,
    isUseful_append_singleton, h g hg, and_comm]
  cases e.1.dominates g.1 <;> simp

/-- The axioms that are kept are the useful ones. -/
theorem foldl_insertUndominated (h : entries.Pairwise (·.2 < ·.2)) :
    (entries.map (·.1)).foldl insertUndominated [] =
      (entries.filter (IsUseful entries ·)).map (·.1) := by
  induction entries using List.reverseRecOn with
  | nil => rfl
  | append_singleton entries e ih =>
      rw [List.pairwise_append] at h
      obtain ⟨hentries, -, hlt⟩ := h
      have ih := ih hentries
      rw [List.map_append, List.foldl_append, List.map_singleton, List.foldl_cons, List.foldl_nil,
        insertUndominated]
      split
      next hany =>
        obtain ⟨x, hx, hdominates⟩ := List.any_eq_true.mp hany
        rw [ih] at hx
        obtain ⟨f, hf, rfl⟩ := List.mem_map.mp hx
        have hf := (List.mem_filter.mp hf).1
        rw [ih, filter_isUseful_of_dominated hf hdominates (hlt f hf e List.mem_cons_self)]
      next hany =>
        have hnot : ∀ f ∈ entries, f.1.dominates e.1 = false := by
          intro f hf
          rw [Bool.eq_false_iff]
          intro hdominates
          obtain ⟨x, hx, hxf⟩ : Covers ((entries.map (·.1)).foldl insertUndominated []) f.1 :=
            covers_foldl (.inr (List.mem_map_of_mem hf))
          exact hany (List.any_eq_true.mpr ⟨x, hx, dominates_trans hxf hdominates⟩)
        rw [filter_isUseful_of_not_dominated hnot, ih, List.map_append, List.filter_map]
        rfl

/-- Each axiom is dominated by a useful one. -/
theorem exists_isUseful (h : entries.Pairwise (·.2 < ·.2)) (he : e ∈ entries) :
    ∃ f ∈ entries, IsUseful entries f ∧ f.1.dominates e.1 = true := by
  obtain ⟨x, hx, hdominates⟩ : Covers ((entries.map (·.1)).foldl insertUndominated []) e.1 :=
    covers_foldl (.inr (List.mem_map_of_mem he))
  rw [foldl_insertUndominated h] at hx
  obtain ⟨f, hf, rfl⟩ := List.mem_map.mp hx
  obtain ⟨hf, huseful⟩ := List.mem_filter.mp hf
  exact ⟨f, hf, of_decide_eq_true huseful, hdominates⟩

/-- Entries are told apart by their positions. -/
theorem eq_of_position (h : entries.Pairwise (·.2 < ·.2)) (he : e ∈ entries) (hf : f ∈ entries)
    (heq : e.2 = f.2) : e = f :=
  List.inj_on_of_nodup_map (List.pairwise_map.mpr (h.imp fun hlt => Nat.ne_of_lt hlt)) he hf heq

theorem mem_candidates : e ∈ candidates entries ↔ e ∈ entries ∧ e.1.isCircular = false := by
  simp [candidates]

theorem size_mark (marked : Array Bool) (i : Nat) (positions : List Nat) :
    (mark marked i positions).size = marked.size := by
  induction positions generalizing marked with
  | nil => rfl
  | cons k positions ih =>
      rw [mark, List.foldl_cons, ← mark, ih]
      split
      · rfl
      · exact Array.size_setIfInBounds

theorem getD_mark (hj : j < marked.size) (positions : List Nat) :
    (mark marked i positions).getD j false = true ↔
      marked.getD j false = true ∨ j ∈ positions ∧ j ≠ i := by
  induction positions generalizing marked with
  | nil => simp [mark]
  | cons k positions ih =>
      rw [mark, List.foldl_cons, ← mark]
      by_cases hk : k = i
      · rw [if_pos hk, ih hj, List.mem_cons]
        subst hk
        tauto
      · rw [if_neg hk, ih (by simpa using hj), Array.getD_eq_getD_getElem?,
          Array.getElem?_setIfInBounds, List.mem_cons, Array.getD_eq_getD_getElem?]
        by_cases hkj : k = j
        · subst hkj
          simp [hj, hk]
        · rw [if_neg hkj, or_iff_right (Ne.symm hkj)]

variable (hentries : entries.Pairwise (·.2 < ·.2))
include hentries

theorem position_mem_requiring (he : e ∈ candidates entries) {l : Literal} :
    e.2 ∈ requiring entries l ↔ l ∈ e.1.condition := by
  rw [requiring, List.mem_map]
  constructor
  · rintro ⟨f, hf, heq⟩
    obtain ⟨hf, hl⟩ := List.mem_filter.mp hf
    obtain rfl := eq_of_position hentries (mem_candidates.mp hf).1 (mem_candidates.mp he).1 heq
    exact of_decide_eq_true hl
  · exact fun hl => ⟨e, List.mem_filter.mpr ⟨he, decide_eq_true hl⟩, rfl⟩

theorem position_mem_requiringAll (he : e ∈ candidates entries) {l : Literal} {ls : List Literal} :
    e.2 ∈ requiringAll entries l ls ↔ ∀ x ∈ l :: ls, x ∈ e.1.condition := by
  have hfold : ∀ positions : List Nat,
      e.2 ∈ ls.foldl (fun positions l => positions.filter (· ∈ requiring entries l)) positions ↔
        e.2 ∈ positions ∧ ∀ x ∈ ls, x ∈ e.1.condition := by
    intro positions
    induction ls generalizing positions with
    | nil => simp
    | cons x ls ih =>
        rw [List.foldl_cons, ih, List.mem_filter, decide_eq_true_eq,
          position_mem_requiring hentries he, List.forall_mem_cons, and_assoc]
  rw [requiringAll, hfold, position_mem_requiring hentries he, List.forall_mem_cons]

/-- The marks when the first entries have been dealt with. -/
structure IsMarking (entries done : List Entry) (marked : Array Bool) : Prop where
  lt_size : ∀ e ∈ entries, e.2 < marked.size
  circular : ∀ e ∈ entries, e.1.isCircular = true → marked.getD e.2 false = true
  useless : ∀ e ∈ candidates entries, marked.getD e.2 false = true →
    ¬IsUseful (candidates entries) e
  dominated : ∀ f ∈ done, f ∈ candidates entries → IsUseful (candidates entries) f →
    ∀ e ∈ candidates entries, f.1.dominates e.1 = true → e ≠ f → marked.getD e.2 false = true

omit hentries in
/-- An entry that is marked already changes nothing. -/
theorem IsMarking.skip (h : IsMarking entries done marked) (hmarked : marked.getD f.2 false = true) :
    IsMarking entries (done ++ [f]) marked where
  lt_size := h.lt_size
  circular := h.circular
  useless := h.useless
  dominated g hg hcandidate huseful := by
    rcases List.mem_append.mp hg with hg | hg
    · exact h.dominated g hg hcandidate huseful
    · obtain rfl := List.mem_singleton.mp hg
      exact absurd huseful (h.useless g hcandidate hmarked)

omit hentries in
theorem IsMarking.mem_candidates (h : IsMarking entries done marked) (hf : f ∈ entries)
    (hmarked : marked.getD f.2 false = false) : f ∈ candidates entries := by
  refine GroundAxiom.mem_candidates.mpr ⟨hf, Bool.eq_false_iff.mpr fun hcircular => ?_⟩
  rw [h.circular f hf hcircular] at hmarked
  cases hmarked

/-- No useful entry before an entry that is not marked dominates it. -/
theorem IsMarking.eq_of_isUseful (h : IsMarking entries done marked)
    (hsplit : entries = done ++ f :: rest) (hmarked : marked.getD f.2 false = false)
    (he : e ∈ candidates entries) (huseful : IsUseful (candidates entries) e)
    (hdominates : e.1.dominates f.1 = true) (hle : e.2 ≤ f.2) : e = f := by
  have hf : f ∈ entries := hsplit ▸ List.mem_append_right _ List.mem_cons_self
  by_contra hne
  have hdone : e ∈ done := by
    have hmem : e ∈ done ++ f :: rest := hsplit ▸ (GroundAxiom.mem_candidates.mp he).1
    rw [hsplit, List.pairwise_append, List.pairwise_cons] at hentries
    rcases List.mem_append.mp hmem with hdone | hrest
    · exact hdone
    · rcases List.mem_cons.mp hrest with rfl | hrest
      · exact absurd rfl hne
      · exact absurd hle (Nat.not_le.mpr (hentries.2.1.1 e hrest))
  rw [h.dominated e hdone he huseful f (h.mem_candidates hf hmarked) hdominates (Ne.symm hne)]
    at hmarked
  cases hmarked

/-- An entry that is not marked marks what it dominates. -/
theorem IsMarking.mark (h : IsMarking entries done marked) (hsplit : entries = done ++ f :: rest)
    (hmarked : marked.getD f.2 false = false) {positions : List Nat}
    (hpositions : ∀ e ∈ candidates entries, e.2 ∈ positions ↔ f.1.dominates e.1 = true) :
    IsMarking entries (done ++ [f]) (mark marked f.2 positions) := by
  have hmem : f ∈ entries := hsplit ▸ List.mem_append_right _ List.mem_cons_self
  have hf := h.mem_candidates hmem hmarked
  have hmark : ∀ e ∈ entries, (GroundAxiom.mark marked f.2 positions).getD e.2 false = true ↔
      marked.getD e.2 false = true ∨ e.2 ∈ positions ∧ e.2 ≠ f.2 :=
    fun e he => getD_mark (h.lt_size e he) positions
  constructor
  · intro e he
    rw [size_mark]
    exact h.lt_size e he
  · exact fun e he hcircular => (hmark e he).mpr (.inl (h.circular e he hcircular))
  · intro e he hnew huseful
    rcases (hmark e (GroundAxiom.mem_candidates.mp he).1).mp hnew with hold | ⟨hposition, hne⟩
    · exact h.useless e he hold huseful
    · obtain ⟨hdominates, hle⟩ := huseful f hf ((hpositions e he).mp hposition)
      exact hne (congrArg _ (h.eq_of_isUseful hentries hsplit hmarked he huseful hdominates hle))
  · intro g hg hcandidate huseful e he hdominates hne
    have he' := (GroundAxiom.mem_candidates.mp he).1
    refine (hmark e he').mpr ?_
    rcases List.mem_append.mp hg with hg | hg
    · exact .inl (h.dominated g hg hcandidate huseful e he hdominates hne)
    · obtain rfl := List.mem_singleton.mp hg
      exact .inr ⟨(hpositions e he).mpr hdominates, fun heq =>
        hne (eq_of_position hentries he' hmem heq)⟩

/-- In the end all useless entries are marked. -/
theorem IsMarking.unmarked_eq (h : IsMarking entries entries marked) :
    unmarked entries (.ok marked) =
      ((candidates entries).filter (IsUseful (candidates entries) ·)).map (·.1) := by
  have hcandidates : (candidates entries).Pairwise (·.2 < ·.2) := hentries.filter _
  rw [unmarked, candidates, List.filter_filter]
  refine congrArg _ (List.filter_congr fun e he => ?_)
  rw [Bool.eq_iff_iff, Bool.and_eq_true, Bool.not_eq_true', Bool.not_eq_true', decide_eq_true_eq,
    ← candidates]
  constructor
  · intro hmarked
    have hcircular : e.1.isCircular = false := Bool.eq_false_iff.mpr fun hcircular => by
      rw [h.circular e he hcircular] at hmarked
      cases hmarked
    have hcandidate := GroundAxiom.mem_candidates.mpr ⟨he, hcircular⟩
    obtain ⟨f, hf, huseful, hdominates⟩ := exists_isUseful hcandidates hcandidate
    by_cases heq : e = f
    · exact ⟨heq ▸ huseful, hcircular⟩
    · rw [h.dominated f (GroundAxiom.mem_candidates.mp hf).1 hf huseful e hcandidate hdominates heq]
        at hmarked
      cases hmarked
  · rintro ⟨huseful, hcircular⟩
    exact Bool.eq_false_iff.mpr fun hmarked =>
      h.useless e (GroundAxiom.mem_candidates.mpr ⟨he, hcircular⟩) hmarked huseful

/-- An axiom without conditions that is not marked is the only useful one. -/
theorem IsMarking.singleton_eq (h : IsMarking entries done marked)
    (hsplit : entries = done ++ f :: rest) (hmarked : marked.getD f.2 false = false)
    (hempty : f.1.condition = []) :
    unmarked entries (.error f.1) =
      ((candidates entries).filter (IsUseful (candidates entries) ·)).map (·.1) := by
  have hcandidates : (candidates entries).Pairwise (·.2 < ·.2) := hentries.filter _
  have hmem : f ∈ entries := hsplit ▸ List.mem_append_right _ List.mem_cons_self
  have hall : ∀ e, f.1.dominates e := fun e => dominates_iff.mpr (by simp [hempty])
  have hone : ∀ e ∈ candidates entries, IsUseful (candidates entries) e → e = f := by
    intro e he huseful
    obtain ⟨hdominates, hle⟩ := huseful f (h.mem_candidates hmem hmarked) (hall e.1)
    exact h.eq_of_isUseful hentries hsplit hmarked he huseful hdominates hle
  have huseful : IsUseful (candidates entries) f := by
    obtain ⟨g, hg, huseful, -⟩ := exists_isUseful hcandidates (h.mem_candidates hmem hmarked)
    exact hone g hg huseful ▸ huseful
  have hperm : [f].Perm ((candidates entries).filter (IsUseful (candidates entries) ·)) := by
    refine (List.perm_ext_iff_of_nodup (List.nodup_singleton f)
      ((hcandidates.imp fun hlt heq => absurd (heq ▸ hlt) (Nat.lt_irrefl _)).filter _)).mpr
        fun e => ?_
    rw [List.mem_singleton, List.mem_filter, decide_eq_true_eq]
    refine ⟨?_, fun he => hone e he.1 he.2⟩
    rintro rfl
    exact ⟨h.mem_candidates hmem hmarked, huseful⟩
  rw [unmarked, List.perm_singleton.mp hperm.symm]
  rfl

/-- Marking leaves the useful axioms, whatever the order in which positions are listed. -/
theorem IsMarking.markDominated (order : IterationOrder Nat) (h : IsMarking entries done marked)
    (hsplit : entries = done ++ rest) :
    unmarked entries (markDominated order entries rest marked) =
      ((candidates entries).filter (IsUseful (candidates entries) ·)).map (·.1) := by
  induction rest generalizing done marked with
  | nil =>
      rw [List.append_nil] at hsplit
      exact IsMarking.unmarked_eq hentries (hsplit ▸ h)
  | cons f rest ih =>
      have hnext : entries = (done ++ [f]) ++ rest := by
        rw [hsplit, List.append_assoc, List.singleton_append]
      rw [GroundAxiom.markDominated]
      by_cases hmarked : marked.getD f.2 false = true
      · rw [if_pos hmarked]
        exact ih (h.skip hmarked) hnext
      · rw [if_neg hmarked]
        have hmarked := Bool.eq_false_iff.mpr hmarked
        cases hcondition : f.1.condition with
        | nil => exact h.singleton_eq hentries hsplit hmarked hcondition
        | cons l ls =>
            refine ih (h.mark hentries hsplit hmarked fun e he => ?_) hnext
            rw [(order.perm f.2 _).mem_iff, position_mem_requiringAll hentries he, dominates_iff,
              hcondition]

end Marking

/-- At first the axioms that require their own effect are marked. -/
theorem isMarking_start (axioms : List GroundAxiom) :
    IsMarking axioms.zipIdx [] (axioms.zipIdx.map (·.1.isCircular)).toArray := by
  have hget : ∀ e ∈ axioms.zipIdx,
      (axioms.zipIdx.map (·.1.isCircular)).toArray.getD e.2 false = e.1.isCircular := by
    intro e he
    rw [List.mem_zipIdx_iff_getElem?] at he
    simp [Array.getD_eq_getD_getElem?, he]
  refine ⟨fun e he => ?_, fun e he hcircular => (hget e he).trans hcircular, fun e he hmarked => ?_,
    nofun⟩
  · rw [List.mem_zipIdx_iff_getElem?] at he
    simpa using (List.getElem?_eq_some_iff.mp he).1
  · obtain ⟨he, hcircular⟩ := mem_candidates.mp he
    rw [hget e he, hcircular] at hmarked
    cases hmarked

/-- Simplification by marking does not depend on the order in which positions are listed. -/
theorem simplifyByMarking_eq (order : IterationOrder Nat) (axioms : List GroundAxiom) :
    simplifyByMarking order axioms = simplify axioms := by
  have hmarking := isMarking_start (axioms.map ordered)
  have hcandidates : (candidates (axioms.map ordered).zipIdx).map (·.1) =
      (axioms.map ordered).filter (!·.isCircular) := by
    have hmap := List.filter_map (f := Prod.fst) (p := fun x : GroundAxiom => !x.isCircular)
      (l := (axioms.map ordered).zipIdx)
    rw [List.zipIdx_map_fst] at hmap
    exact hmap.symm
  have hpairwise : (candidates (axioms.map ordered).zipIdx).Pairwise fun e f => e.2 < f.2 :=
    (pairwise_zipIdx _).filter _
  rw [simplifyByMarking, hmarking.markDominated (pairwise_zipIdx _) order rfl, simplify,
    ← hcandidates, foldl_insertUndominated hpairwise]

end GroundAxiom

/-!
### The axioms that are kept

Simplified axioms are an equivalent antichain: none of them is of use beside another one, and what
was left out is covered by an axiom that is kept.
-/

instance : Std.TransOrd Literal :=
  inferInstanceAs (Std.TransCmp (compareLex (compareOn Literal.atom) (compareOn Literal.negated)))

instance : Std.LawfulEqOrd Literal where
  eq_of_compare {l m} h := by
    obtain ⟨hatom, hnegated⟩ := compareLex_eq_eq.mp h
    cases l
    cases m
    simp only [Literal.mk.injEq]
    exact ⟨Std.LawfulEqCmp.eq_of_compare hatom, Std.LawfulEqCmp.eq_of_compare hnegated⟩

namespace GroundAxiom

/-- An axiom is another one with the literals of its condition in order, each once. -/
structure IsOrdering (a x : GroundAxiom) : Prop where
  name_eq : x.name = a.name
  effect_eq : x.effect = a.effect
  pairwise : x.condition.Pairwise fun l m => compare l m = .lt
  mem_condition : ∀ l, l ∈ x.condition ↔ l ∈ a.condition

/-- Axioms that may stand in the place of the given ones. -/
structure IsReduction (axioms kept : List GroundAxiom) : Prop where
  exists_given : ∀ x ∈ kept, ∃ a ∈ axioms, IsOrdering a x
  /-- No condition is part of another one. -/
  antichain : kept.Pairwise fun x y => ¬ x.condition ⊆ y.condition ∧ ¬ y.condition ⊆ x.condition
  not_circular : ∀ x ∈ kept, x.effect.positive ∉ x.condition
  covers : ∀ a ∈ axioms, a.effect.positive ∉ a.condition → ∃ x ∈ kept, x.condition ⊆ a.condition

variable {axioms kept : List GroundAxiom} {a x y : GroundAxiom}

theorem dominates_eq_false_iff : x.dominates y = false ↔ ¬ x.condition ⊆ y.condition := by
  rw [Bool.eq_false_iff, Ne, dominates_iff]
  rfl

theorem isOrdering_ordered (a : GroundAxiom) : IsOrdering a a.ordered where
  name_eq := rfl
  effect_eq := rfl
  pairwise := pairwise_compare_orderedSet a.condition
  mem_condition _ := mem_condition_ordered

/-- Neither of two axioms dominates the other one. -/
def AreIncomparable (x y : GroundAxiom) : Prop :=
  x.dominates y = false ∧ y.dominates x = false

theorem pairwise_insertUndominated (h : kept.Pairwise AreIncomparable) :
    (insertUndominated kept a).Pairwise AreIncomparable := by
  rw [insertUndominated]
  split
  next => exact h
  next hany =>
    refine List.pairwise_append.mpr ⟨h.filter _, List.pairwise_singleton _ a, fun x hx y hy => ?_⟩
    obtain rfl := List.mem_singleton.mp hy
    obtain ⟨hx, hnot⟩ := List.mem_filter.mp hx
    refine ⟨Bool.eq_false_iff.mpr fun hdominates => ?_, by simpa using hnot⟩
    exact hany (List.any_eq_true.mpr ⟨x, hx, hdominates⟩)

theorem mem_insertUndominated (h : x ∈ insertUndominated kept a) : x ∈ kept ∨ x = a := by
  rw [insertUndominated] at h
  split at h
  next => exact .inl h
  next => exact (List.mem_append.mp h).imp List.mem_of_mem_filter List.mem_singleton.mp

theorem pairwise_foldl_insertUndominated (h : kept.Pairwise AreIncomparable) :
    (axioms.foldl insertUndominated kept).Pairwise AreIncomparable := by
  induction axioms generalizing kept with
  | nil => exact h
  | cons a axioms ih => exact ih (pairwise_insertUndominated h)

theorem mem_foldl_insertUndominated (h : x ∈ axioms.foldl insertUndominated kept) :
    x ∈ kept ∨ x ∈ axioms := by
  induction axioms generalizing kept with
  | nil => exact .inl h
  | cons a axioms ih =>
      rcases ih h with h | h
      · exact (mem_insertUndominated h).imp_right fun he => List.mem_cons.mpr (.inl he)
      · exact .inr (List.mem_cons_of_mem a h)

theorem mem_simplify (h : x ∈ simplify axioms) :
    ∃ a ∈ axioms, x = a.ordered ∧ x.effect.positive ∉ x.condition := by
  have hmem := (mem_foldl_insertUndominated h).resolve_left List.not_mem_nil
  obtain ⟨hmem, hcircular⟩ := List.mem_filter.mp hmem
  obtain ⟨a, ha, rfl⟩ := List.mem_map.mp hmem
  exact ⟨a, ha, rfl, fun hc => by simp [isCircular_iff.mpr hc] at hcircular⟩

/-- Simplification leaves an equivalent antichain. The same axioms are left if the useless ones are
found by marking, whatever the order in which the dominated ones are marked. -/
theorem simplify_isReduction (order : IterationOrder Nat) (axioms : List GroundAxiom) :
    IsReduction axioms (simplify axioms) ∧ simplifyByMarking order axioms = simplify axioms := by
  refine ⟨⟨fun x hx => ?_, ?_, fun x hx => ?_, fun a ha hc => exists_mem_simplify ha hc⟩,
    simplifyByMarking_eq order axioms⟩
  · obtain ⟨a, ha, rfl, -⟩ := mem_simplify hx
    exact ⟨a, ha, isOrdering_ordered a⟩
  · have hapart : (simplify axioms).Pairwise AreIncomparable :=
      pairwise_foldl_insertUndominated .nil
    exact hapart.imp fun h => h.imp dominates_eq_false_iff.mp dominates_eq_false_iff.mp
  · obtain ⟨a, -, -, hc⟩ := mem_simplify hx
    exact hc

end GroundAxiom
end FinitePlanning
