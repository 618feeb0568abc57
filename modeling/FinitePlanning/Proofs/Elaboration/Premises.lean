import FinitePlanning.Proofs.Condition.Constants
import FinitePlanning.Proofs.Elaboration.Meaning
import FinitePlanning.Proofs.Semantics.Effect

/-!
Premises of effects. Exactly those formulas are read as constant conditions whose connectives alone
decide them, and the condition that a premise is read as is true if and only if the premise is
granted.
-/

namespace FinitePlanning
namespace Elaboration

open Grounding (valuesOf)

variable {d : Declarations} {scope inner : Scope} {s s' s'' : ElaborationState} {negated : Bool}
  {objects : String → List String} {I : Interpretation} {env : Environment} {values : Renaming}
  {head : Symbol} {args : List Sexpr} {span : Span} {e bound body : Sexpr} {c : Condition}
  {cs : List Condition} {ps : List Parameter} {v : Bool}

/-! ### Constants -/

/-- The connectives alone decide a condition as they decide a formula, or the other way if it is
negated. -/
def Settles (negated : Bool) (e : Sexpr) (c : Condition) : Prop :=
  ∀ v, c.IsConstantly v ↔ e.IsConstantly (v ^^ negated)

theorem isConstantly_junction {conjunctive : Bool} : (junction conjunctive cs).IsConstantly v ↔
    if v = conjunctive then ∀ c ∈ cs, c.IsConstantly v else ∃ c ∈ cs, c.IsConstantly v := by
  cases conjunctive <;> cases v <;> simp [junction]

theorem isConstantly_quantifier {universal : Bool} :
    (quantifier universal ps c).IsConstantly v ↔ c.IsConstantly v := by
  cases universal with
  | true => exact Condition.isConstantly_forall
  | false => exact Condition.isConstantly_exists

theorem settles_and (hhead : Connective.ofKeyword? head.name = some .and)
    (h : List.Forall₂ (Settles negated) args cs) :
    Settles negated (.list (.atom head :: args) span) (junction (!negated) cs) := by
  intro v
  have hparts := h.imp fun e c hc => hc v
  rw [isConstantly_junction, Sexpr.isConstantly_and hhead, forall_mem_iff_of_forall₂ hparts,
    exists_mem_iff_of_forall₂ hparts]
  refine iff_of_eq (if_congr ?_ rfl rfl)
  cases v <;> cases negated <;> decide

theorem settles_or (hhead : Connective.ofKeyword? head.name = some .or)
    (h : List.Forall₂ (Settles negated) args cs) :
    Settles negated (.list (.atom head :: args) span) (junction negated cs) := by
  intro v
  have hparts := h.imp fun e c hc => hc v
  rw [isConstantly_junction, Sexpr.isConstantly_or hhead, forall_mem_iff_of_forall₂ hparts,
    exists_mem_iff_of_forall₂ hparts]
  refine iff_of_eq (if_congr ?_ rfl rfl)
  cases v <;> cases negated <;> decide

theorem settles_imply {premise conclusion : Sexpr} {c' : Condition}
    (hhead : Connective.ofKeyword? head.name = some .imply) (h : Settles (!negated) premise c)
    (h' : Settles negated conclusion c') :
    Settles negated (.list [.atom head, premise, conclusion] span) (junction negated [c, c']) := by
  intro v
  have hnot : (v ^^ !negated) = !(v ^^ negated) := Bool.xor_not v negated
  have hjoin : v = negated ↔ (v ^^ negated) = false := by
    cases v <;> cases negated <;> decide
  rw [isConstantly_junction, Sexpr.isConstantly_imply hhead, ← hnot]
  simp only [List.forall_mem_cons, List.exists_mem_cons_iff, List.not_mem_nil, false_and,
    exists_false, or_false, IsEmpty.forall_iff, implies_true, and_true, h v, h' v, hjoin]

/-! ### Truth -/

/-- A condition counts as true if and only if a formula is granted, or if it is not for a negated
one. -/
def Grants (d : Declarations) (scope : Scope) (negated : Bool) (e : Sexpr) (c : Condition) : Prop :=
  ∀ ⦃objects : String → List String⦄ ⦃I : Interpretation⦄ ⦃env : Environment⦄ ⦃values : Renaming⦄,
    FixesObjects values.apply → scope.Agrees env values →
      (c.HoldsFolded objects (Literal.Holds I) values ↔
        if negated then ¬ e.IsGranted d objects I env else e.IsGranted d objects I env)

theorem grants_and (hhead : Connective.ofKeyword? head.name = some .and)
    (h : List.Forall₂ (Grants d scope negated) args cs) :
    Grants d scope negated (.list (.atom head :: args) span) (junction (!negated) cs) := by
  intro objects I env values hfix hagrees
  rw [Sexpr.isGranted_and hhead]
  exact (junction_iff (fun _ => Condition.holdsFolded_and) (fun _ => Condition.holdsFolded_or)
    (h.imp fun e c hc => hc hfix hagrees)).1

theorem grants_or (hhead : Connective.ofKeyword? head.name = some .or)
    (h : List.Forall₂ (Grants d scope negated) args cs) :
    Grants d scope negated (.list (.atom head :: args) span) (junction negated cs) := by
  intro objects I env values hfix hagrees
  rw [Sexpr.isGranted_or hhead]
  exact (junction_iff (fun _ => Condition.holdsFolded_and) (fun _ => Condition.holdsFolded_or)
    (h.imp fun e c hc => hc hfix hagrees)).2

theorem grants_imply {premise conclusion : Sexpr} {c' : Condition}
    (hhead : Connective.ofKeyword? head.name = some .imply)
    (h : Grants d scope (!negated) premise c) (h' : Grants d scope negated conclusion c') :
    Grants d scope negated (.list [.atom head, premise, conclusion] span)
      (junction negated [c, c']) := by
  intro objects I env values hfix hagrees
  rw [Sexpr.isGranted_imply hhead]
  exact imply_iff (fun _ => Condition.holdsFolded_and) (fun _ => Condition.holdsFolded_or)
    (h hfix hagrees) (h' hfix hagrees)

/-- The body of a quantifier for values of its variables. -/
theorem Quantifies.holdsFolded_body (h : Quantifies scope bound s ps inner s')
    (hreserved : scope.IsReserved s) (hbody : Grants d inner negated body c)
    (hfix : FixesObjects values.apply) (hagrees : scope.Agrees env values) {os : List String}
    (hos : TypedBy objects ps os) :
    c.HoldsFolded objects (Literal.Holds I) (valuesOf ps os ++ values) ↔
      if negated then ¬ body.IsGranted d objects I (env.update (bound.boundNames.map (·.1)) os)
      else body.IsGranted d objects I (env.update (bound.boundNames.map (·.1)) os) :=
  hbody (Condition.fixesObjects_append h.declares.areVariables.isVariable hfix os)
    (h.agrees hreserved hagrees hos.length_eq)

theorem Quantifies.grants_forall (hhead : Connective.ofKeyword? head.name = some .forall)
    (h : Quantifies scope bound s ps inner s') (hreserved : scope.IsReserved s)
    (hsettles : Settles negated body c) (hbody : Grants d inner negated body c) :
    Grants d scope negated (.list [.atom head, bound, body] span)
      (quantifier (!negated) ps c) := by
  intro objects I env values hfix hagrees
  have hholds := fun os (hos : TypedBy objects ps os) =>
    h.holdsFolded_body (I := I) hreserved hbody hfix hagrees hos
  rw [Sexpr.isGranted_forall hhead]
  simp only [h.range]
  cases negated with
  | true =>
      push Not
      refine Condition.holdsFolded_exists.trans (or_iff_not_imp_left.trans ?_)
      exact imp_congr (not_congr (hsettles true)) (exists_congr fun os => and_congr_right (hholds os))
  | false =>
      exact Condition.holdsFolded_forall.trans
        (and_congr (not_congr (hsettles false)) (forall₂_congr hholds))

theorem Quantifies.grants_exists (hhead : Connective.ofKeyword? head.name = some .exists)
    (h : Quantifies scope bound s ps inner s') (hreserved : scope.IsReserved s)
    (hsettles : Settles negated body c) (hbody : Grants d inner negated body c) :
    Grants d scope negated (.list [.atom head, bound, body] span) (quantifier negated ps c) := by
  intro objects I env values hfix hagrees
  have hholds := fun os (hos : TypedBy objects ps os) =>
    h.holdsFolded_body (I := I) hreserved hbody hfix hagrees hos
  rw [Sexpr.isGranted_exists hhead]
  simp only [h.range]
  cases negated with
  | true =>
      push Not
      exact Condition.holdsFolded_forall.trans
        (and_congr (not_congr (hsettles false)) (forall₂_congr hholds))
  | false =>
      exact Condition.holdsFolded_exists.trans (or_congr (hsettles true)
        (exists_congr fun os => and_congr_right (hholds os)))

/-! ### Readings -/

/-- A reading of a premise within a scope whose names are reserved. -/
structure IsWeighed (d : Declarations) (scope : Scope) (negated : Bool) (e : Sexpr)
    (s : ElaborationState) (c : Condition) (s' : ElaborationState) : Prop where
  grows : s.reserved ⊆ s'.reserved
  settles : Settles negated e c
  grants : scope.IsReserved s → Grants d scope negated e c

theorem weighed_of_readsEach (h : ReadsEach (IsWeighed d scope negated) args s cs s') :
    s.reserved ⊆ s'.reserved ∧ List.Forall₂ (Settles negated) args cs ∧
      (scope.IsReserved s → List.Forall₂ (Grants d scope negated) args cs) := by
  induction h with
  | nil s => exact ⟨List.Subset.refl _, .nil, fun _ => .nil⟩
  | cons hc _ ih =>
      obtain ⟨hgrows, hsettles, hgrants⟩ := ih
      exact ⟨List.Subset.trans hc.grows hgrows, .cons hc.settles hsettles, fun hreserved =>
        .cons (hc.grants hreserved) (hgrants fun x hx => hc.grows (hreserved x hx))⟩

theorem followsFromParts_isWeighed : FollowsFromParts d (IsWeighed d) where
  truth scope negated span s := by
    refine ⟨List.Subset.refl _, fun v => ?_, fun _ _ _ _ _ _ _ => ?_⟩
    · rw [Sexpr.isConstantly_nil]
      cases negated <;> cases v <;> simp
    · cases negated <;> simp
  literal {scope negated head args span s s' a} hhead h := by
    obtain ⟨head, es, heq, -, hpredicate, hargs, hgrows⟩ := reads_atom h
    cases heq
    refine ⟨hgrows, fun v => iff_of_false Condition.not_isConstantly_literal
      (Sexpr.not_isConstantly_atom hhead), fun _ objects I env values hfix hagrees => ?_⟩
    rw [Condition.holdsFolded_literal, Sexpr.isGranted_atom hhead,
      ← rename_of_terms hfix hagrees hpredicate hargs]
    cases negated with
    | true => exact Literal.holds_negative I _
    | false => exact Literal.holds_positive I _
  and hhead h := by
    obtain ⟨hgrows, hsettles, hgrants⟩ := weighed_of_readsEach h
    exact ⟨hgrows, settles_and hhead hsettles, fun hreserved =>
      grants_and hhead (hgrants hreserved)⟩
  or hhead h := by
    obtain ⟨hgrows, hsettles, hgrants⟩ := weighed_of_readsEach h
    exact ⟨hgrows, settles_or hhead hsettles, fun hreserved =>
      grants_or hhead (hgrants hreserved)⟩
  not {scope negated head arg span s s' c} hhead h := by
    refine ⟨h.grows, fun v => ?_, fun hreserved objects I env values hfix hagrees => ?_⟩
    · rw [h.settles v, Sexpr.isConstantly_not hhead, Bool.xor_not]
    · rw [h.grants hreserved hfix hagrees, Sexpr.isGranted_not hhead]
      cases negated with
      | true => exact not_not.symm
      | false => exact Iff.rfl
  imply hhead h h' := by
    refine ⟨List.Subset.trans h.grows h'.grows, settles_imply hhead h.settles h'.settles,
      fun hreserved => grants_imply hhead (h.grants hreserved) (h'.grants fun x hx => ?_)⟩
    exact h.grows (hreserved x hx)
  «forall» hhead hbound h := by
    have hquantifies := quantifies_of_reads hbound
    refine ⟨List.Subset.trans hquantifies.declares.grows h.grows, fun v => ?_, fun hreserved => ?_⟩
    · rw [isConstantly_quantifier, Sexpr.isConstantly_forall hhead, h.settles v]
    · exact hquantifies.grants_forall hhead hreserved h.settles
        (h.grants (hquantifies.reserved hreserved))
  «exists» hhead hbound h := by
    have hquantifies := quantifies_of_reads hbound
    refine ⟨List.Subset.trans hquantifies.declares.grows h.grows, fun v => ?_, fun hreserved => ?_⟩
    · rw [isConstantly_quantifier, Sexpr.isConstantly_exists hhead, h.settles v]
    · exact hquantifies.grants_exists hhead hreserved h.settles
        (h.grants (hquantifies.reserved hreserved))

/-- The condition that a premise is read as is true if and only if the premise is granted. -/
structure Weighs (d : Declarations) (scope : Scope) (e : Sexpr) (c : Condition) : Prop where
  simplified : c.IsSimplified
  holds_iff {objects : String → List String} {I : Interpretation} {env : Environment}
    {values : Renaming} : FixesObjects values.apply → scope.Agrees env values →
      (c.Holds objects I values ↔ e.IsGranted d objects I env)

theorem weighs_of_condition (h : Reads (condition d scope e) s c s') :
    s.reserved ⊆ s'.reserved ∧ (scope.IsReserved s → Weighs d scope e c) := by
  rw [condition] at h
  obtain ⟨built, q, hbuilt, h⟩ := reads_bind h
  obtain ⟨rfl, rfl⟩ := reads_pure h
  have hweighed := followsFromParts_isWeighed.of_reads hbuilt
  refine ⟨hweighed.grows, fun hreserved => ⟨Condition.isSimplified_simplified _, ?_⟩⟩
  intro objects I env values hfix hagrees
  rw [Condition.holds_iff_holdsWith, Condition.holdsWith_simplified]
  exact hweighed.grants hreserved hfix hagrees

/-- If each type has an object, exactly the true premises are granted. -/
theorem isGranted_iff_isTrue (hreserved : scope.IsReserved s)
    (h : Reads (condition d scope e) s c s') (hobjects : ∀ type, objects type ≠ [])
    (hfix : FixesObjects values.apply) :
    e.IsGranted d objects I (scope.environment values) ↔
      e.IsTrue d objects I (scope.environment values) := by
  rw [condition] at h
  obtain ⟨built, q, hbuilt, -⟩ := reads_bind h
  have hagrees := scope.agrees_environment values
  have hgranted : built.HoldsFolded objects (Literal.Holds I) values ↔ _ :=
    (followsFromParts_isWeighed.of_reads hbuilt).grants hreserved hfix hagrees
  have htrue : built.Holds objects I values ↔ _ :=
    (followsFromParts_isFaithful.of_reads hbuilt hreserved).2 hfix hagrees
  rw [if_neg Bool.false_ne_true] at hgranted htrue
  rw [← hgranted, ← htrue, (Condition.isInhabited_of_objects hobjects built).holdsFolded_iff,
    Condition.holds_iff_holdsWith]

end Elaboration
end FinitePlanning
