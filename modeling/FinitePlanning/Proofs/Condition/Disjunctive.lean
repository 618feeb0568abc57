import FinitePlanning.Condition.Simplify
import FinitePlanning.Proofs.Condition.Scope

/-!
The disjunctive normal form of a condition without universal quantifiers is a
disjunction of alternatives, each of which is a conjunction of literals below one
existential quantifier once the quantifiers are pulled out.
-/

namespace FinitePlanning
namespace Condition

variable {t : Task} {k : Fragment} {vars : List String} {c : Condition}

/-- The alternatives of a condition, itself if it is no disjunction. -/
def alternatives (c : Condition) : List Condition :=
  c.alternatives?.getD [c]

/-! ### Distribution -/

/-- A choice of alternatives, with the parts that are no disjunctions, has one alternative of
each part. -/
theorem exists_alternatives {R : Condition → Condition → Prop} {f : Condition → Condition}
    {parts choice : List Condition} (hR : ∀ c ∈ parts, ∀ d ∈ (f c).alternatives, R c d)
    (h : choice ∈ choices ((parts.map f).filterMap alternatives?)) :
    ∃ picks, List.Forall₂ R parts picks ∧
      ((parts.map f).filter (·.alternatives?.isNone) ++ choice).Perm picks := by
  rw [mem_choices] at h
  induction parts generalizing choice with
  | nil =>
      cases h
      exact ⟨[], .nil, .refl _⟩
  | cons c parts ih =>
      rw [List.forall_mem_cons] at hR
      rw [List.map_cons] at h ⊢
      cases hc : (f c).alternatives? with
      | none =>
          rw [List.filterMap_cons_none hc] at h
          obtain ⟨picks, hpicks, hperm⟩ := ih hR.2 h
          refine ⟨f c :: picks, .cons (hR.1 _ ?_) hpicks, ?_⟩
          · simp [alternatives, hc]
          · rw [List.filter_cons_of_pos (by simp [hc]), List.cons_append]
            exact hperm.cons (f c)
      | some ds =>
          rw [List.filterMap_cons_some hc] at h
          cases h with
          | @cons d _ choice _ hd h =>
              obtain ⟨picks, hpicks, hperm⟩ := ih hR.2 h
              refine ⟨d :: picks, .cons (hR.1 d ?_) hpicks, ?_⟩
              · simpa [alternatives, hc] using hd
              · rw [List.filter_cons_of_neg (by simp [hc])]
                exact List.perm_middle.trans (hperm.cons d)

theorem alternatives_distributeNode_and (parts : List Condition) :
    (distributeNode (.and parts)).alternatives =
      (choices (parts.filterMap alternatives?)).map fun choice =>
        .and (parts.filter (·.alternatives?.isNone) ++ choice) := by
  simp only [distributeNode]
  split
  next h => simp [alternatives, alternatives?, List.isEmpty_iff.mp h, choices]
  next => rfl

theorem alternatives_distributeNode_exists (ps : List Parameter) (body : Condition) :
    (distributeNode (.exists ps body)).alternatives = body.alternatives.map (.exists ps) := by
  simp only [distributeNode, alternatives]
  cases body.alternatives? <;> rfl

/-- The alternatives have no disjunctions, and each only variables of its own. -/
theorem shrinksTo_of_mem_distributed (h : c.InFragment .withoutUniversals) {d : Condition}
    (hd : d ∈ (c.mapBottomUp distributeNode).alternatives) :
    ShrinksTo .existentialConjunctions c d := by
  induction c generalizing d with
  | true =>
      rw [mapBottomUp_true] at hd
      obtain rfl := List.mem_singleton.mp hd
      exact ⟨.refl _, inFragment_true⟩
  | false =>
      rw [mapBottomUp_false] at hd
      obtain rfl := List.mem_singleton.mp hd
      exact ⟨.refl _, inFragment_false⟩
  | literal l =>
      rw [mapBottomUp_literal] at hd
      obtain rfl := List.mem_singleton.mp hd
      exact ⟨.refl _, inFragment_literal l⟩
  | and parts ih =>
      rw [inFragment_and] at h
      rw [mapBottomUp_and, alternatives_distributeNode_and] at hd
      obtain ⟨choice, hchoice, rfl⟩ := List.mem_map.mp hd
      obtain ⟨picks, hpicks, hperm⟩ :=
        exists_alternatives (fun c hc _ hd => ih c hc (h c hc) hd) hchoice
      refine ⟨(Shrinks.and (hpicks.imp fun _ _ h => h.toShrinks)).trans (.of_perm hperm.symm),
        inFragment_and.mpr fun d hd => ?_⟩
      obtain ⟨c, -, hc⟩ := exists_of_mem_forall₂_right hpicks (hperm.mem_iff.mp hd)
      exact hc.fragment
  | or parts ih =>
      rw [inFragment_or] at h
      rw [mapBottomUp_or] at hd
      obtain ⟨d', hd', hd⟩ := List.mem_flatMap.mp hd
      obtain ⟨c, hc, rfl⟩ := List.mem_map.mp hd'
      obtain ⟨hshrinks, hfragment⟩ := ih c hc (h.2 c hc) hd
      exact ⟨(Shrinks.of_mem_or hc).trans hshrinks, hfragment⟩
  | «forall» => cases (inFragment_forall.mp h).1
  | «exists» ps body ih =>
      rw [mapBottomUp_exists, alternatives_distributeNode_exists] at hd
      obtain ⟨e, he, rfl⟩ := List.mem_map.mp hd
      obtain ⟨hshrinks, hfragment⟩ := ih (inFragment_exists.mp h).2 he
      exact ⟨hshrinks.exists, inFragment_exists.mpr ⟨rfl, hfragment⟩⟩

theorem alternatives_eq (h : c.InFragment .existentialConjunctions) : c.alternatives = [c] := by
  cases c with
  | or => cases (inFragment_or.mp h).1
  | true | false | literal _ | and _ | «forall» _ _ | «exists» _ _ => rfl

/-- The alternatives of a simplified disjunction are simplified alternatives. -/
theorem shrinksTo_of_mem_alternatives_simplified {c' d : Condition}
    (h : ∀ d ∈ c'.alternatives, ShrinksTo .existentialConjunctions c d)
    (hd : d ∈ c'.simplified.alternatives) : ShrinksTo .existentialConjunctions c d := by
  have hsingle : ∀ {e}, ShrinksTo .existentialConjunctions c e → d ∈ e.alternatives →
      ShrinksTo .existentialConjunctions c d := by
    intro e he hd
    rw [alternatives_eq he.fragment] at hd
    exact List.mem_singleton.mp hd ▸ he
  cases c' with
  | or parts =>
      have hpart : ∀ e ∈ (parts.map (·.mapBottomUp simplifyNode)).flatMap disjunctionParts,
          ShrinksTo .existentialConjunctions c e := by
        intro e he
        obtain ⟨e', he', he⟩ := List.mem_flatMap.mp he
        obtain ⟨p, hp, rfl⟩ := List.mem_map.mp he'
        exact (h p hp).simplified.of_mem_disjunctionParts he
      rw [Condition.simplified, mapBottomUp_or, simplifyNode] at hd
      split at hd
      · exact hsingle ⟨.to_true, inFragment_true⟩ hd
      · split at hd
        · exact hsingle ⟨.to_false, inFragment_false⟩ hd
        next e hone => exact hsingle (hpart e (hone ▸ List.mem_singleton_self e)) hd
        · exact hpart d hd
  | true | false | literal _ | and _ | «forall» _ _ | «exists» _ _ =>
      exact hsingle (h _ (List.mem_singleton_self _)).simplified hd

theorem isSimplified_of_mem_alternatives {d : Condition} (h : c.IsSimplified)
    (hd : d ∈ c.alternatives) : d.IsSimplified := by
  cases c with
  | or parts => exact h.of_mem_parts hd
  | true | false | literal _ | and _ | «forall» _ _ | «exists» _ _ =>
      exact List.mem_singleton.mp hd ▸ h

/-- The alternatives of the disjunctive normal form. -/
theorem shrinksTo_of_mem_alternatives (h : c.InFragment .withoutUniversals) {d : Condition}
    (hd : d ∈ c.disjunctiveForm.alternatives) : ShrinksTo .existentialConjunctions c d := by
  rw [disjunctiveForm] at hd
  split at hd
  next =>
    exact shrinksTo_of_mem_alternatives_simplified (fun _ => shrinksTo_of_mem_distributed h) hd
  next hdisjunction =>
    have hc := h.withoutDisjunction (Bool.not_eq_true _ ▸ hdisjunction)
    rw [alternatives_eq hc] at hd
    obtain rfl := List.mem_singleton.mp hd
    exact ⟨.refl _, hc⟩

theorem isPart_of_mem_alternatives (h : c.IsScoped t .withoutUniversals vars) {d : Condition}
    (hd : d ∈ c.disjunctiveForm.alternatives) : IsPart t .existentialConjunctions vars c d :=
  (shrinksTo_of_mem_alternatives h.inFragment hd).isPart h

theorem isSimplified_disjunctiveForm (h : c.IsSimplified) : c.disjunctiveForm.IsSimplified := by
  rw [disjunctiveForm]
  split
  · exact isSimplified_simplified _
  · exact h

/-! ### Pulling quantifiers out -/

/-- Another condition is a conjunction below one quantifier, with no further literals, free names or
quantified variables. -/
structure SplitsInto (c : Condition) (ps : List Parameter) (body : Condition) : Prop where
  shrinks : Shrinks c (.exists ps body)
  fragment : body.InFragment .conjunctions

theorem SplitsInto.quantified {ps : List Parameter} {body : Condition} (h : SplitsInto c ps body) :
    ps.Subperm c.quantifiedParameters := by
  have hquantified := h.shrinks.quantified
  rwa [quantifiedParameters_exists, h.fragment.quantifiedParameters_eq_nil, List.append_nil]
    at hquantified

theorem splitsInto_of_conjunction {d : Condition} (h : Shrinks c d)
    (hd : d.InFragment .conjunctions) : SplitsInto c [] d :=
  ⟨h.trans .exists_nil, hd⟩

theorem SplitsInto.and {parts : List Condition} {splits : List (List Parameter × Condition)}
    (h : List.Forall₂ (fun c p => SplitsInto c p.1 p.2) parts splits) :
    SplitsInto (.and parts) (splits.flatMap (·.1)) (.and (splits.map (·.2))) where
  shrinks :=
    { literals := by
        simp only [literals_exists, literals_and, List.flatMap_map]
        intro l hl
        obtain ⟨p, hp, hl⟩ := List.mem_flatMap.mp hl
        obtain ⟨c, hc, hcp⟩ := exists_of_mem_forall₂_right h hp
        exact List.mem_flatMap.mpr ⟨c, hc, hcp.shrinks.literals (by rwa [literals_exists])⟩
      quantified := by
        have hnil : (splits.map (·.2)).flatMap quantifiedParameters = [] := by
          rw [List.flatMap_map, List.flatMap_eq_nil_iff]
          intro p hp
          obtain ⟨c, -, hcp⟩ := exists_of_mem_forall₂_right h hp
          exact hcp.fragment.quantifiedParameters_eq_nil
        rw [quantifiedParameters_exists, quantifiedParameters_and, hnil, List.append_nil,
          quantifiedParameters_and]
        exact subperm_flatMap (h.flip.imp fun _ _ h => h.quantified)
      free := by
        intro x hx
        obtain ⟨hout, hx⟩ := isFree_exists.mp hx
        obtain ⟨body, hbody, hx⟩ := isFree_and.mp hx
        obtain ⟨p, hp, rfl⟩ := List.mem_map.mp hbody
        obtain ⟨c, hc, hcp⟩ := exists_of_mem_forall₂_right h hp
        refine .and hc (hcp.shrinks.free x (.exists (fun hxp => hout ?_) hx))
        exact List.map_subset (·.name) (subperm_of_mem_flatMap (f := (·.1)) hp).subset hxp }
  fragment := inFragment_and.mpr <| List.forall_mem_map.mpr fun p hp => by
    obtain ⟨c, -, hcp⟩ := exists_of_mem_forall₂_right h hp
    exact hcp.fragment

theorem SplitsInto.exists {ps qs : List Parameter} {c body : Condition}
    (h : SplitsInto c qs body) : SplitsInto (.exists ps c) (ps ++ qs) body where
  shrinks := h.shrinks.exists.trans .exists_exists
  fragment := h.fragment

theorem splitExistential_eq (h : c.InFragment .conjunctions) : c.splitExistential = ([], c) := by
  cases c with
  | «exists» => cases (inFragment_exists.mp h).1
  | true | false | literal _ | and _ | or _ | «forall» _ _ => rfl

theorem splitExistential_pullNode_and (parts : List Condition) :
    (pullNode (.and parts)).splitExistential =
      ((parts.filterMap existential?).flatMap (·.1),
        .and (parts.filter (·.existential?.isNone) ++ (parts.filterMap existential?).map (·.2))) := by
  simp only [pullNode]
  split
  next h => simp [splitExistential, existential?, List.isEmpty_iff.mp h]
  next => rfl

theorem splitExistential_pullNode_exists (ps : List Parameter) (body : Condition) :
    (pullNode (.exists ps body)).splitExistential =
      (ps ++ body.splitExistential.1, body.splitExistential.2) := by
  simp only [pullNode, splitExistential]
  cases body.existential? with
  | none => simp [existential?]
  | some p => rfl

theorem flatMap_existential (parts : List Condition) :
    (parts.filterMap existential?).flatMap (·.1) = parts.flatMap (·.splitExistential.1) := by
  induction parts with
  | nil => rfl
  | cons c parts ih =>
      rw [List.flatMap_cons, ← ih, List.filterMap_cons, splitExistential]
      cases c.existential? <;> rfl

theorem perm_splitExistential (parts : List Condition) :
    (parts.filter (·.existential?.isNone) ++ (parts.filterMap existential?).map (·.2)).Perm
      (parts.map (·.splitExistential.2)) := by
  induction parts with
  | nil => exact .refl _
  | cons c parts ih =>
      rw [List.map_cons, splitExistential]
      cases hc : c.existential? with
      | none =>
          rw [List.filter_cons_of_pos (by simp [hc]), List.filterMap_cons_none hc]
          exact ih.cons c
      | some p =>
          rw [List.filter_cons_of_neg (by simp [hc]), List.filterMap_cons_some hc]
          exact List.perm_middle.trans (ih.cons p.2)

/-- One quantifier is left, above a conjunction. -/
theorem splitsInto_pulled (h : c.InFragment .existentialConjunctions) :
    SplitsInto c (c.mapBottomUp pullNode).splitExistential.1
      (c.mapBottomUp pullNode).splitExistential.2 := by
  induction c with
  | true => exact mapBottomUp_true ▸ splitsInto_of_conjunction (.refl _) inFragment_true
  | false => exact mapBottomUp_false ▸ splitsInto_of_conjunction (.refl _) inFragment_false
  | literal l =>
      exact mapBottomUp_literal l ▸ splitsInto_of_conjunction (.refl _) (inFragment_literal l)
  | and parts ih =>
      rw [inFragment_and] at h
      rw [mapBottomUp_and, splitExistential_pullNode_and, flatMap_existential]
      have hparts := SplitsInto.and (List.forall₂_map_right_iff.mpr (List.forall₂_same.mpr
        fun c hc => ih c hc (h c hc)))
      rw [List.flatMap_map, List.map_map] at hparts
      rw [List.flatMap_map]
      have hperm := perm_splitExistential (parts.map (·.mapBottomUp pullNode))
      rw [List.map_map] at hperm
      exact ⟨hparts.shrinks.trans (Shrinks.exists (.of_perm hperm.symm)), inFragment_and.mpr
        fun d hd => inFragment_and.mp hparts.fragment d (hperm.mem_iff.mp hd)⟩
  | or => cases (inFragment_or.mp h).1
  | «forall» => cases (inFragment_forall.mp h).1
  | «exists» ps body ih =>
      rw [mapBottomUp_exists, splitExistential_pullNode_exists]
      exact (ih (inFragment_exists.mp h).2).exists

theorem SplitsInto.simplifyNode {ps : List Parameter} {body : Condition}
    (h : SplitsInto c ps body) :
    SplitsInto c (Condition.exists ps body).simplifyNode.splitExistential.1
      (Condition.exists ps body).simplifyNode.splitExistential.2 := by
  rw [Condition.simplifyNode]
  split
  next hdrop =>
    rw [splitExistential_eq h.fragment]
    exact splitsInto_of_conjunction (h.shrinks.trans
      (Shrinks.of_dropped (Shrinks.not_isFree_of_dropped hdrop)).2) h.fragment
  next => exact h

theorem SplitsInto.simplified {d : Condition}
    (h : SplitsInto c d.splitExistential.1 d.splitExistential.2) :
    SplitsInto c d.simplified.splitExistential.1 d.simplified.splitExistential.2 := by
  have hconjunction : SplitsInto c [] d →
      SplitsInto c d.simplified.splitExistential.1 d.simplified.splitExistential.2 := by
    intro ⟨hshrinks, hfragment⟩
    rw [splitExistential_eq hfragment.simplified]
    exact splitsInto_of_conjunction ((hshrinks.trans
      (Shrinks.of_dropped (List.forall_mem_nil _)).2).trans (.simplified d)) hfragment.simplified
  cases d with
  | «exists» ps body =>
      rw [Condition.simplified, mapBottomUp_exists]
      have hbody : SplitsInto c ps body.simplified :=
        ⟨h.shrinks.trans (Shrinks.simplified body).exists, h.fragment.simplified⟩
      exact hbody.simplifyNode
  | true | false | literal _ | and _ | or _ | «forall» _ _ => exact hconjunction h

/-- What becomes of a conjunction with quantifiers. -/
theorem splitsInto_pullExistentials (h : c.InFragment .existentialConjunctions) :
    SplitsInto c c.pullExistentials.splitExistential.1 c.pullExistentials.splitExistential.2 := by
  rw [pullExistentials]
  split
  next => exact (splitsInto_pulled h).simplified
  next hexistential =>
    have hc := h.withoutExistentialPart (Bool.not_eq_true _ ▸ hexistential)
    rw [splitExistential_eq hc]
    exact splitsInto_of_conjunction (.refl _) hc

/-- The quantified variables and the body of a condition, with some of the quantified variables of
another one. -/
structure IsSplit (t : Task) (vars : List String) (c : Condition) (ps : List Parameter)
    (body : Condition) : Prop where
  inScope : body.IsScoped t .conjunctions (vars ++ ps.map (·.name))
  quantified : ps.Subperm c.quantifiedParameters

theorem isSplit_pullExistentials (h : c.IsScoped t .existentialConjunctions vars) :
    IsSplit t vars c c.pullExistentials.splitExistential.1
      c.pullExistentials.splitExistential.2 := by
  have hsplits := splitsInto_pullExistentials h.inFragment
  refine ⟨?_, hsplits.quantified⟩
  have hexists : (Condition.exists c.pullExistentials.splitExistential.1
      c.pullExistentials.splitExistential.2).IsScoped t .existentialConjunctions vars :=
    h.of_shrinksTo ⟨hsplits.shrinks, inFragment_exists.mpr ⟨rfl, hsplits.fragment.toExistential⟩⟩
  cases hexists with
  | «exists» _ hbody => exact hbody.within hsplits.fragment

theorem isSimplified_splitExistential (h : c.IsSimplified) :
    c.pullExistentials.splitExistential.2.IsSimplified := by
  have hsplit : ∀ {d : Condition}, d.IsSimplified → d.splitExistential.2.IsSimplified := by
    intro d hd
    cases hd with
    | «exists» _ hbody _ => exact hbody
    | truth => exact .truth
    | falsity => exact .falsity
    | literal l => exact .literal l
    | and several hparts hconjunct => exact .and several hparts hconjunct
    | or several hparts hdisjunct => exact .or several hparts hdisjunct
    | «forall» some hbody hopen => exact .forall some hbody hopen
  rw [pullExistentials]
  split
  · exact hsplit (isSimplified_simplified _)
  · exact hsplit h

/-! ### Conjunctions of literals -/

theorem exists_literals {parts : List Condition} (h : ∀ c ∈ parts, c.InFragment .conjunctions)
    (hconjunct : ∀ c ∈ parts, c.isConjunct = .true) :
    ∃ ls : List Literal, parts = ls.map .literal := by
  induction parts with
  | nil => exact ⟨[], rfl⟩
  | cons c parts ih =>
      rw [List.forall_mem_cons] at h hconjunct
      obtain ⟨ls, rfl⟩ := ih h.2 hconjunct.2
      cases c with
      | literal l => exact ⟨l :: ls, rfl⟩
      | true | false | and => cases hconjunct.1
      | or => cases (inFragment_or.mp h.1).1
      | «forall» => cases (inFragment_forall.mp h.1).1
      | «exists» => cases (inFragment_exists.mp h.1).1

/-- A simplified conjunction is false, or a conjunction of literals. -/
theorem isSome_conjunction? (h : c.IsSimplified) (hc : c.InFragment .conjunctions)
    (hfalse : c ≠ .false) : c.conjunction?.isSome := by
  cases h with
  | truth | literal _ => rfl
  | falsity => exact absurd rfl hfalse
  | or => cases (inFragment_or.mp hc).1
  | «forall» => cases (inFragment_forall.mp hc).1
  | «exists» => cases (inFragment_exists.mp hc).1
  | and _ _ hconjunct =>
      obtain ⟨ls, rfl⟩ := exists_literals (inFragment_and.mp hc) hconjunct
      rw [conjunction?_and]
      rfl

theorem isOver_of_conjunction (h : c.IsScoped t k vars) (hc : c.conjunction?.isSome) :
    c.IsOver t vars := by
  obtain ⟨ls, hls⟩ := Option.isSome_iff_exists.mp hc
  refine ⟨ls, hls, fun l hl => ?_⟩
  rcases conjunction?_eq_some hls with ⟨-, rfl⟩ | ⟨m, rfl, rfl⟩ | rfl
  · cases hl
  · obtain rfl := List.mem_singleton.mp hl
    cases h with
    | literal h => exact h
  · cases h with
    | and h =>
        cases h _ (List.mem_map_of_mem hl) with
        | literal h => exact h

end Condition
end FinitePlanning
