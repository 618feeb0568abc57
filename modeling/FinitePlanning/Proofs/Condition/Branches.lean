import FinitePlanning.Proofs.Condition.Constants
import FinitePlanning.Proofs.Condition.Disjunctive

/-!
A condition without universal quantifiers is true if and only if one of its branches is, for some
values of the variables of that branch. Distribution keeps the truth value of each node. Quantifiers
can be pulled out of a conjunction because no part of it mentions the variables of another part.
-/

namespace FinitePlanning
namespace Condition

open Grounding (valuesOf)

variable {objects : String → List String} {reading : Literal → Prop} {values : Renaming}
  {c d : Condition} {cs : List Condition} {ps qs : List Parameter}

/-! ### Solid conditions -/

theorem IsSolid.isConstant (h : c.IsSolid) : c.isConstant = .false := by
  cases h <;> rfl

theorem IsSolid.mapBottomUp {f : Condition → Condition} (h : c.IsSolid)
    (hf : ∀ c, c.IsSolid → (f c).IsSolid) : (c.mapBottomUp f).IsSolid := by
  induction h with
  | literal l => exact mapBottomUp_literal l ▸ hf _ (.literal l)
  | and some _ ih =>
      rw [mapBottomUp_and]
      exact hf _ (.and (by simpa using some) (List.forall_mem_map.mpr ih))
  | or some _ ih =>
      rw [mapBottomUp_or]
      exact hf _ (.or (by simpa using some) (List.forall_mem_map.mpr ih))
  | «forall» _ ih => exact mapBottomUp_forall _ _ ▸ hf _ (.forall ih)
  | «exists» _ ih => exact mapBottomUp_exists _ _ ▸ hf _ (.exists ih)

theorem isSolid_iff_alternatives :
    c.IsSolid ↔ c.alternatives ≠ [] ∧ ∀ d ∈ c.alternatives, d.IsSolid := by
  cases c with
  | or parts => exact ⟨fun | .or hsome h => ⟨hsome, h⟩, fun ⟨hsome, h⟩ => .or hsome h⟩
  | true | false | literal _ | and _ | «forall» _ _ | «exists» _ _ =>
      simp [alternatives, alternatives?]

theorem isSolid_splitExistential : c.splitExistential.2.IsSolid ↔ c.IsSolid := by
  cases c with
  | «exists» ps body => exact ⟨.exists, fun | .exists h => h⟩
  | true | false | literal _ | and _ | or _ | «forall» _ _ => exact Iff.rfl

/-! ### Distribution -/

theorem holdsWith_mapBottomUp {f : Condition → Condition}
    (hf : ∀ c values, (f c).HoldsWith objects reading values ↔ c.HoldsWith objects reading values)
    (c : Condition) (values : Renaming) : (c.mapBottomUp f).HoldsWith objects reading values ↔
      c.HoldsWith objects reading values := by
  induction c generalizing values with
  | true => exact mapBottomUp_true ▸ hf _ _
  | false => exact mapBottomUp_false ▸ hf _ _
  | literal l => exact mapBottomUp_literal l ▸ hf _ _
  | and parts ih =>
      rw [mapBottomUp_and, hf, holdsWith_and, holdsWith_and, List.forall_mem_map]
      exact forall₂_congr fun c hc => ih c hc values
  | or parts ih =>
      rw [mapBottomUp_or, hf]
      simp only [holdsWith_or, List.mem_map, exists_exists_and_eq_and]
      exact exists_congr fun c => and_congr_right fun hc => ih c hc values
  | «forall» ps body ih =>
      rw [mapBottomUp_forall, hf, holdsWith_forall, holdsWith_forall]
      exact forall₂_congr fun os _ => ih _
  | «exists» ps body ih =>
      rw [mapBottomUp_exists, hf, holdsWith_exists, holdsWith_exists]
      exact exists_congr fun os => and_congr_right fun _ => ih _

theorem holdsWith_alternatives : (∃ d ∈ c.alternatives, d.HoldsWith objects reading values) ↔
    c.HoldsWith objects reading values := by
  cases c with
  | or parts => exact holdsWith_or.symm
  | true | false | literal _ | and _ | «forall» _ _ | «exists» _ _ =>
      simp [alternatives, alternatives?]

/-- A conjunction is true if one can choose a true alternative of every part. -/
theorem exists_choice_iff {P : Condition → Prop} (parts : List Condition) :
    (∃ choice ∈ choices (parts.filterMap alternatives?),
      ∀ d ∈ parts.filter (·.alternatives?.isNone) ++ choice, P d) ↔
      ∀ c ∈ parts, ∃ d ∈ c.alternatives, P d := by
  have hparts : (∀ d ∈ parts.filter (·.alternatives?.isNone), P d) ∧
      (∀ ds ∈ parts.filterMap alternatives?, ∃ d ∈ ds, P d) ↔
      ∀ c ∈ parts, ∃ d ∈ c.alternatives, P d := by
    induction parts with
    | nil => simp
    | cons c parts ih =>
        rw [List.forall_mem_cons, ← ih, alternatives]
        cases hc : c.alternatives? with
        | none =>
            rw [List.filter_cons_of_pos (by simp [hc]), List.filterMap_cons_none hc,
              List.forall_mem_cons, Option.getD_none, and_assoc]
            simp
        | some ds =>
            rw [List.filter_cons_of_neg (by simp [hc]), List.filterMap_cons_some hc,
              List.forall_mem_cons]
            exact and_left_comm
  rw [← hparts, ← exists_choices_iff]
  simp only [List.forall_mem_append]
  constructor
  · rintro ⟨choice, hchoice, hothers, hP⟩
    exact ⟨hothers, choice, hchoice, hP⟩
  · rintro ⟨hothers, choice, hchoice, hP⟩
    exact ⟨choice, hchoice, hothers, hP⟩

theorem holdsWith_distributeNode (c : Condition) (values : Renaming) :
    (distributeNode c).HoldsWith objects reading values ↔ c.HoldsWith objects reading values := by
  cases c with
  | and parts =>
      rw [← holdsWith_alternatives, alternatives_distributeNode_and]
      simp only [List.mem_map, exists_exists_and_eq_and, holdsWith_and]
      rw [exists_choice_iff]
      exact forall₂_congr fun c _ => holdsWith_alternatives
  | or parts =>
      have hnode : distributeNode (.or parts) = .or (parts.flatMap alternatives) := rfl
      rw [hnode, holdsWith_or, holdsWith_or]
      constructor
      · rintro ⟨d, hd, hholds⟩
        obtain ⟨c, hc, hd⟩ := List.mem_flatMap.mp hd
        exact ⟨c, hc, holdsWith_alternatives.mp ⟨d, hd, hholds⟩⟩
      · rintro ⟨c, hc, hholds⟩
        obtain ⟨d, hd, hholds⟩ := holdsWith_alternatives.mpr hholds
        exact ⟨d, List.mem_flatMap.mpr ⟨c, hc, hd⟩, hholds⟩
  | «exists» ps body =>
      rw [← holdsWith_alternatives, alternatives_distributeNode_exists]
      simp only [List.mem_map, exists_exists_and_eq_and, holdsWith_exists]
      constructor
      · rintro ⟨d, hd, os, hos, hholds⟩
        exact ⟨os, hos, holdsWith_alternatives.mp ⟨d, hd, hholds⟩⟩
      · rintro ⟨os, hos, hholds⟩
        obtain ⟨d, hd, hholds⟩ := holdsWith_alternatives.mpr hholds
        exact ⟨d, hd, os, hos, hholds⟩
  | true | false | literal _ | «forall» _ _ => exact Iff.rfl

theorem IsSolid.distributeNode (h : c.IsSolid) : (distributeNode c).IsSolid := by
  cases h with
  | literal l => exact .literal l
  | «forall» h => exact .forall h
  | @and parts some h =>
      rw [isSolid_iff_alternatives, alternatives_distributeNode_and]
      have halternatives := fun c hc => isSolid_iff_alternatives.mp (h c hc)
      refine ⟨?_, List.forall_mem_map.mpr fun choice hchoice => ?_⟩
      · -- all alternatives satisfy the trivial property, so that there is a choice
        obtain ⟨choice, hchoice, -⟩ := (exists_choice_iff (P := fun _ => True) parts).mpr
          fun c hc => (List.exists_mem_of_ne_nil _ (halternatives c hc).1).imp fun _ hd =>
            ⟨hd, trivial⟩
        exact List.ne_nil_of_mem (List.mem_map_of_mem hchoice)
      · obtain ⟨picks, hpicks, hperm⟩ := exists_alternatives (R := fun _ d => d.IsSolid) (f := id)
          (fun c hc d hd => (halternatives c hc).2 d hd) (by simpa using hchoice)
        rw [List.map_id] at hperm
        refine .and (fun hnil => some ?_) fun d hd => ?_
        · rw [← List.length_eq_zero_iff, hpicks.length_eq, ← hperm.length_eq, hnil, List.length_nil]
        · exact (exists_of_mem_forall₂_right hpicks (hperm.mem_iff.mp hd)).choose_spec.2
  | @or parts some h =>
      have halternatives := fun c hc => isSolid_iff_alternatives.mp (h c hc)
      refine .or (fun hnil => ?_) fun d hd => ?_
      · obtain ⟨c, hc⟩ := List.exists_mem_of_ne_nil parts some
        exact (halternatives c hc).1 (List.flatMap_eq_nil_iff.mp hnil c hc)
      · obtain ⟨c, hc, hd⟩ := List.mem_flatMap.mp hd
        exact (halternatives c hc).2 d hd
  | @«exists» ps body h =>
      obtain ⟨hsome, hsolid⟩ := isSolid_iff_alternatives.mp h
      rw [isSolid_iff_alternatives, alternatives_distributeNode_exists]
      exact ⟨by simpa using hsome, List.forall_mem_map.mpr fun d hd => .exists (hsolid d hd)⟩

theorem isConstant_of_any_walk {f : Condition → Bool} (h : c.walk.any f = .true)
    (htrue : f .true = .false) (hfalse : f .false = .false) : c.isConstant = .false := by
  cases c with
  | true | false => simp [htrue, hfalse] at h
  | literal _ | and _ | or _ | «forall» _ _ | «exists» _ _ => rfl

section

variable (h : c.IsSimplified)
include h

theorem holdsWith_disjunctiveForm : c.disjunctiveForm.HoldsWith objects reading values ↔
    c.HoldsWith objects reading values := by
  rw [disjunctiveForm]
  split
  next hdisjunction =>
    have hsolid := (h.isSolid (isConstant_of_any_walk hdisjunction rfl rfl)).mapBottomUp
      fun _ => IsSolid.distributeNode
    rw [hsolid.holdsWith_simplified, holdsWith_mapBottomUp holdsWith_distributeNode]
  next => rfl

theorem isConstant_disjunctiveForm (hopen : c.isConstant = .false) :
    c.disjunctiveForm.isConstant = .false := by
  rw [disjunctiveForm]
  split
  · exact ((h.isSolid hopen).mapBottomUp fun _ => IsSolid.distributeNode).isConstant_simplified
  · exact hopen

end

/-! ### Pulling quantifiers out -/

/-- The values of all variables of two quantifiers. -/
theorem exists_typedBy_append {P : Renaming → Prop} :
    (∃ os, TypedBy objects (ps ++ qs) os ∧ P (valuesOf (ps ++ qs) os ++ values)) ↔
      ∃ os, TypedBy objects ps os ∧ ∃ os', TypedBy objects qs os' ∧
        P (valuesOf qs os' ++ (valuesOf ps os ++ values)) := by
  simp only [typedBy_append]
  constructor
  · rintro ⟨_, ⟨os, os', hos, hos', rfl⟩, h⟩
    rw [valuesOf_append hos.length_eq, List.append_assoc] at h
    exact ⟨os, hos, os', hos', h⟩
  · rintro ⟨os, hos, os', hos', h⟩
    refine ⟨os ++ os', ⟨os, os', hos, hos', rfl⟩, ?_⟩
    rwa [valuesOf_append hos.length_eq, List.append_assoc]

theorem holdsWith_splitExistential :
    (∃ os, TypedBy objects c.splitExistential.1 os ∧
      c.splitExistential.2.HoldsWith objects reading (valuesOf c.splitExistential.1 os ++ values)) ↔
      c.HoldsWith objects reading values := by
  cases c with
  | «exists» ps body => exact holdsWith_exists.symm
  | true | false | literal _ | and _ | or _ | «forall» _ _ =>
      simp [splitExistential, existential?, typedBy_nil, valuesOf]

/-- Quantifiers of different variables, each of which occurs in one part only, can be merged. -/
theorem holdsWith_merged {splits : List (List Parameter × Condition)}
    (hnodup : ((splits.flatMap (·.1)).map (·.name)).Nodup)
    (hown : ∀ p ∈ splits, ∀ x ∈ (splits.flatMap (·.1)).map (·.name), p.2.IsFree x →
      x ∈ p.1.map (·.name)) :
    (∃ os, TypedBy objects (splits.flatMap (·.1)) os ∧
      ∀ p ∈ splits, p.2.HoldsWith objects reading (valuesOf (splits.flatMap (·.1)) os ++ values)) ↔
      ∀ p ∈ splits, ∃ os, TypedBy objects p.1 os ∧
        p.2.HoldsWith objects reading (valuesOf p.1 os ++ values) := by
  induction splits with
  | nil => simp [typedBy_nil]
  | cons p splits ih =>
      rw [List.flatMap_cons, List.map_append] at hnodup hown
      obtain ⟨-, hrest, hdisjoint⟩ := List.nodup_append.mp hnodup
      rw [List.forall_mem_cons] at hown
      have ih := ih hrest fun q hq x hx => hown.2 q hq x (List.mem_append_right _ hx)
      have hfirst : ∀ os os', p.2.HoldsWith objects reading
          (valuesOf (splits.flatMap (·.1)) os' ++ (valuesOf p.1 os ++ values)) ↔
          p.2.HoldsWith objects reading (valuesOf p.1 os ++ values) := by
        intro os os'
        refine holdsWith_congr fun x hx => Renaming.apply_append_of_not_mem fun hmem => ?_
        have hmem := Grounding.mem_keys_valuesOf hmem
        exact hdisjoint x (hown.1 x (List.mem_append_right _ hmem) hx) x hmem rfl
      have hothers : ∀ os os', TypedBy objects (splits.flatMap (·.1)) os' → ∀ q ∈ splits,
          (q.2.HoldsWith objects reading
            (valuesOf (splits.flatMap (·.1)) os' ++ (valuesOf p.1 os ++ values)) ↔
            q.2.HoldsWith objects reading (valuesOf (splits.flatMap (·.1)) os' ++ values)) := by
        intro os os' hos' q hq
        refine holdsWith_congr fun x hx => apply_append_congr hos' fun hout => ?_
        refine Renaming.apply_append_of_not_mem fun hmem => hout ?_
        have hp : x ∈ p.1.map (·.name) := Grounding.mem_keys_valuesOf hmem
        exact List.map_subset _ (subperm_of_mem_flatMap (f := (·.1)) hq).subset
          (hown.2 q hq x (List.mem_append_left _ hp) hx)
      rw [List.forall_mem_cons, ← ih, List.flatMap_cons, exists_typedBy_append
        (P := fun r => ∀ q ∈ p :: splits, q.2.HoldsWith objects reading r)]
      constructor
      · rintro ⟨os, hos, os', hos', h⟩
        rw [List.forall_mem_cons] at h
        exact ⟨⟨os, hos, (hfirst os os').mp h.1⟩,
          os', hos', fun q hq => (hothers os os' hos' q hq).mp (h.2 q hq)⟩
      · rintro ⟨⟨os, hos, h⟩, os', hos', h'⟩
        exact ⟨os, hos, os', hos', List.forall_mem_cons.mpr ⟨(hfirst os os').mpr h,
          fun q hq => (hothers os os' hos' q hq).mpr (h' q hq)⟩⟩

/-- In a rectified conjunction no variable of one part is free in another one. -/
theorem holdsWith_and_merged {f : Condition → List Parameter × Condition}
    (hcs : (Condition.and cs).IsRectified) (h : ∀ c ∈ cs, SplitsInto c (f c).1 (f c).2) :
    (∃ os, TypedBy objects (cs.flatMap fun c => (f c).1) os ∧ ∀ c ∈ cs,
      (f c).2.HoldsWith objects reading (valuesOf (cs.flatMap fun c => (f c).1) os ++ values)) ↔
      ∀ c ∈ cs, ∃ os, TypedBy objects (f c).1 os ∧
        (f c).2.HoldsWith objects reading (valuesOf (f c).1 os ++ values) := by
  have hsplits : List.Forall₂ (fun c p => SplitsInto c p.1 p.2) cs (cs.map f) :=
    List.forall₂_map_right_iff.mpr (List.forall₂_same.mpr h)
  have hquantified := (SplitsInto.and hsplits).quantified
  have hnodup : (((cs.map f).flatMap (·.1)).map (·.name)).Nodup := by
    obtain ⟨qs, hperm, hqs⟩ := hquantified
    exact (hperm.map (·.name)).nodup_iff.mp ((hqs.map (·.name)).nodup hcs.nodup)
  have hown : ∀ p ∈ cs.map f, ∀ x ∈ ((cs.map f).flatMap (·.1)).map (·.name), p.2.IsFree x →
      x ∈ p.1.map (·.name) := by
    refine List.forall_mem_map.mpr fun c hc x hx hfree => ?_
    by_contra hout
    exact hcs.bound x (List.map_subset _ hquantified.subset hx)
      (.and hc ((h c hc).shrinks.free x (.exists hout hfree)))
  have hmerged := @holdsWith_merged objects reading values _ hnodup hown
  simpa only [List.flatMap_map, List.forall_mem_map] using hmerged

theorem holdsWith_pulled (h : c.InFragment .existentialConjunctions) (hc : c.IsRectified) :
    (c.mapBottomUp pullNode).HoldsWith objects reading values ↔
      c.HoldsWith objects reading values := by
  induction c generalizing values with
  | true => exact mapBottomUp_true ▸ Iff.rfl
  | false => exact mapBottomUp_false ▸ Iff.rfl
  | literal l => exact mapBottomUp_literal l ▸ Iff.rfl
  | or => cases (inFragment_or.mp h).1
  | «forall» => cases (inFragment_forall.mp h).1
  | and parts ih =>
      rw [inFragment_and] at h
      have hmerged := @holdsWith_and_merged objects reading values _ _ hc
        fun c hc => splitsInto_pulled (h c hc)
      rw [mapBottomUp_and, ← holdsWith_splitExistential, splitExistential_pullNode_and,
        flatMap_existential]
      simp only [holdsWith_and, (perm_splitExistential _).mem_iff, List.flatMap_map,
        List.forall_mem_map]
      exact hmerged.trans (forall₂_congr fun c hmem => holdsWith_splitExistential.trans
        (ih c hmem (h c hmem) ((Shrinks.of_mem_and hmem).isRectified hc)))
  | «exists» ps body ih =>
      rw [inFragment_exists] at h
      rw [mapBottomUp_exists, ← holdsWith_splitExistential, splitExistential_pullNode_exists,
        exists_typedBy_append (P := fun r => Condition.HoldsWith objects reading r _),
        holdsWith_exists]
      exact exists_congr fun os => and_congr_right fun _ =>
        holdsWith_splitExistential.trans (ih h.2 hc.of_exists)

theorem IsSolid.pullNode (h : c.IsSolid) : (pullNode c).IsSolid := by
  cases h with
  | literal l => exact .literal l
  | or some h => exact .or some h
  | «forall» h => exact .forall h
  | @and parts some h =>
      rw [← isSolid_splitExistential, splitExistential_pullNode_and]
      have hperm := perm_splitExistential parts
      refine .and (fun hnil => some ?_) fun d hd => ?_
      · exact List.map_eq_nil_iff.mp (hnil ▸ hperm).nil_eq.symm
      · obtain ⟨c, hc, rfl⟩ := List.mem_map.mp (hperm.mem_iff.mp hd)
        exact isSolid_splitExistential.mpr (h c hc)
  | «exists» h =>
      rw [← isSolid_splitExistential, splitExistential_pullNode_exists]
      exact isSolid_splitExistential.mpr h

section

variable (h : c.IsSimplified)
include h

theorem holdsWith_pullExistentials (hfragment : c.InFragment .existentialConjunctions)
    (hc : c.IsRectified) : c.pullExistentials.HoldsWith objects reading values ↔
      c.HoldsWith objects reading values := by
  rw [pullExistentials]
  split
  next hexistential =>
    have hsolid := (h.isSolid (isConstant_of_any_walk hexistential rfl rfl)).mapBottomUp
      fun _ => IsSolid.pullNode
    rw [hsolid.holdsWith_simplified, holdsWith_pulled hfragment hc]
  next => rfl

theorem isConstant_pullExistentials (hopen : c.isConstant = .false) :
    c.pullExistentials.splitExistential.2.isConstant = .false := by
  have hsolid := h.isSolid hopen
  refine (isSolid_splitExistential.mpr ?_).isConstant
  rw [pullExistentials]
  split
  · have hpulled := hsolid.mapBottomUp fun _ => IsSolid.pullNode
    exact (isSimplified_simplified _).isSolid hpulled.isConstant_simplified
  · exact hsolid

end

/-! ### Branches -/

/-- The branches of a condition: the alternatives of its disjunctive normal form, with variables for
which there have to be values. -/
def branches (c : Condition) : List (List Parameter × Condition) :=
  c.disjunctiveForm.alternatives.map fun d => d.pullExistentials.splitExistential

variable {p : List Parameter × Condition}

theorem splitsInto_of_mem_branches (h : c.InFragment .withoutUniversals) (hp : p ∈ c.branches) :
    SplitsInto c p.1 p.2 := by
  obtain ⟨d, hd, rfl⟩ := List.mem_map.mp hp
  obtain ⟨hshrinks, hfragment⟩ := shrinksTo_of_mem_alternatives h hd
  obtain ⟨hsplits, hconjunction⟩ := splitsInto_pullExistentials hfragment
  exact ⟨hshrinks.trans hsplits, hconjunction⟩

/-- A condition is true if and only if one of its branches is, for some values of the variables of
this branch. -/
theorem holdsWith_branches (h : c.InFragment .withoutUniversals) (hs : c.IsSimplified)
    (hc : c.IsRectified) :
    (∃ p ∈ c.branches, ∃ os, TypedBy objects p.1 os ∧
      p.2.HoldsWith objects reading (valuesOf p.1 os ++ values)) ↔
      c.HoldsWith objects reading values := by
  simp only [branches, List.mem_map, exists_exists_and_eq_and]
  rw [← holdsWith_disjunctiveForm hs, ← holdsWith_alternatives]
  refine exists_congr fun d => and_congr_right fun hd => holdsWith_splitExistential.trans ?_
  have hshrinks := shrinksTo_of_mem_alternatives h hd
  exact holdsWith_pullExistentials
    (isSimplified_of_mem_alternatives (isSimplified_disjunctiveForm hs) hd)
    hshrinks.fragment (hshrinks.isRectified hc)

theorem holds_branches {s : Interpretation} (h : c.InFragment .withoutUniversals)
    (hs : c.IsSimplified) (hc : c.IsRectified) :
    (∃ p ∈ c.branches, ∃ os, TypedBy objects p.1 os ∧
      p.2.Holds objects s (valuesOf p.1 os ++ values)) ↔ c.Holds objects s values := by
  simp only [holds_iff_holdsWith]
  exact holdsWith_branches h hs hc

theorem branches_of_isConstant (h : c.isConstant = .true) : c.branches = [([], c)] := by
  cases c with
  | true | false =>
      simp [branches, disjunctiveForm, hasDisjunction, pullExistentials, hasExistentialPart,
        alternatives, alternatives?, splitExistential, existential?]
  | literal _ | and _ | or _ | «forall» _ _ | «exists» _ _ => cases h

theorem isConstant_of_mem_alternatives (h : c.IsSimplified) (hopen : c.isConstant = .false)
    (hd : d ∈ c.alternatives) : d.isConstant = .false := by
  cases h with
  | truth | falsity => cases hopen
  | or _ _ hdisjunct => exact isConstant_of_isDisjunct (hdisjunct d hd)
  | literal _ | and _ _ _ | «forall» _ _ _ | «exists» _ _ _ =>
      exact List.mem_singleton.mp hd ▸ hopen

/-- All branches are conjunctions of literals, unless the condition is the constant that no
conjunction is equivalent to. -/
theorem isSome_conjunction?_of_mem_branches (h : c.InFragment .withoutUniversals)
    (hs : c.IsSimplified) (hfalse : c ≠ .false) (hp : p ∈ c.branches) :
    p.2.conjunction?.isSome := by
  cases hopen : c.isConstant with
  | true =>
      rw [branches_of_isConstant hopen] at hp
      obtain rfl := List.mem_singleton.mp hp
      cases c with
      | true => rfl
      | false => exact absurd rfl hfalse
      | literal _ | and _ | or _ | «forall» _ _ | «exists» _ _ => cases hopen
  | false =>
      have hfragment := (splitsInto_of_mem_branches h hp).fragment
      obtain ⟨d, hd, rfl⟩ := List.mem_map.mp hp
      have hform := isSimplified_disjunctiveForm hs
      have hsimplified := isSimplified_of_mem_alternatives hform hd
      have hbody := isConstant_pullExistentials hsimplified
        (isConstant_of_mem_alternatives hform (isConstant_disjunctiveForm hs hopen) hd)
      refine isSome_conjunction? (isSimplified_splitExistential hsimplified) hfragment fun hf => ?_
      rw [hf] at hbody
      cases hbody

end Condition
end FinitePlanning
