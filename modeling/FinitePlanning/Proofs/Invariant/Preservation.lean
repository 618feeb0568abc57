import FinitePlanning.Proofs.Invariant.Balance
import FinitePlanning.Proofs.Invariant.Candidates

/-!
Invariants over runs. If an instance of an invariant that passed the test describes
at most one true atom of a state, it does so after every applicable action,
provided that the deletions that the test relies on take place.
-/

namespace FinitePlanning

namespace Task

variable {t : Task}

/-- All instances of actions that are applicable in reachable states are listed. -/
def Lists (t : Task) (argumentsOf : Nat → List (List String)) : Prop :=
  ∀ s, t.Reachable s → ∀ i a args, t.actions[i]? = some a → t.Applicable s a args →
    args ∈ argumentsOf i

/-- All arguments of the types of the parameters. -/
def typedArguments (t : Task) (i : Nat) : List (List String) :=
  choices ((t.actions.getD i default).parameters.map fun p => t.objectsOf p.type)

theorem lists_typedArguments : t.Lists t.typedArguments := by
  rintro s - i a args hi ⟨htyped, -⟩
  rw [typedArguments, List.getD_eq_getElem?_getD, hi, mem_choices, List.forall₂_map_right_iff]
  exact htyped.flip

/-- Actions change atoms of named predicates that are not derived. -/
theorem IsNormal.triggers_basic (ht : t.IsNormal) {s : Interpretation} {a : Action}
    (ha : a ∈ t.actions) {args : List String} {l : Literal} (h : t.Triggers s a args l) :
    t.isDerived l.atom = false ∧ ∃ name, l.atom.predicate = .named name := by
  obtain ⟨e, he, os, -, -, rfl⟩ := h
  have hn := (ht.actions a ha).effects e he
  exact ⟨hn.basic, hn.named⟩

theorem not_mem_typeAtoms {b : Atom} (h : ∃ name, b.predicate = .named name) :
    b ∉ t.typeAtoms := by
  obtain ⟨name, hname⟩ := h
  simp only [typeAtoms, List.mem_flatMap, List.mem_map, not_exists, not_and]
  rintro o - type - rfl
  cases hname

theorem isDerived_equal {args : List String} : t.isDerived ⟨.equal, args⟩ = false := rfl

theorem IsNormal.reachable_isProper (ht : t.IsNormal) {s : Interpretation}
    (hs : t.Reachable s) : t.IsProper s := by
  induction hs with
  | init =>
      intro args
      rw [initialState, mem_complete_of_not_derived _ isDerived_equal, ← ht.equal args]
      constructor
      · rintro (h | h)
        · exact h
        · simp only [typeAtoms, List.mem_flatMap, List.mem_map] at h
          obtain ⟨o, -, type, -, he⟩ := h
          cases he
      · exact .inl
  | @step s a args _ ha _ ih =>
      intro eqs
      rw [mem_complete_of_not_derived _ isDerived_equal, ← ih eqs]
      have hno : ∀ {l : Literal}, t.Triggers s a args l → l.atom ≠ ⟨.equal, eqs⟩ := by
        intro l hl he
        obtain ⟨-, name, hname⟩ := ht.triggers_basic ha hl
        rw [he] at hname
        cases hname
      constructor
      · rintro (h | h)
        · exact absurd rfl (hno h)
        · exact h.1
      · exact fun h => .inr ⟨h, fun hdel => hno hdel rfl⟩

end Task

namespace Invariant

/-- At most one atom of an instance of an invariant is true. -/
def AtMostOne (v : Invariant) (params : List String) (s : Interpretation) : Prop :=
  ∀ b ∈ s, ∀ c ∈ s, v.Covers params b → v.Covers params c → b = c

/-- The test relies on deletions only where they take place. A deletion that is
found to balance an addition has a match, unless the addition never adds a new
atom; and when a new atom is added no other one of the same instance that is
deleted is added again. This suffices for the invariant to hold, but it is not
necessary. -/
structure IsReliable (t : Task) (argumentsOf : Nat → List (List String)) (v : Invariant) :
    Prop where
  matched : ∀ i (a : Action), t.actions[i]? = some a →
    ∀ e ∈ a.effects, ∀ d ∈ a.effects, e.literal.negated = false → d.literal.negated = true →
      v.Balances (a.withInequalities (argumentsOf i)) e d →
      Contradictory (known (a.withInequalities (argumentsOf i)) e) ∨
        ∃ θ, Matches t v (a.withInequalities (argumentsOf i)) e d θ
  kept : ∀ s, t.Reachable s → ∀ a ∈ t.actions, ∀ args, t.Applicable s a args →
    ∀ params b c, b ∉ s → c ∈ s → v.Covers params b → v.Covers params c →
      t.Triggers s a args b.positive → t.Triggers s a args c.negative →
        ¬ t.Triggers s a args c.positive

variable {t : Task} {argumentsOf : Nat → List (List String)} {v : Invariant}

/-- What the test of an action that passed it says. -/
theorem of_violation?_eq_none
    (h : v.violation? (BalancedAction.ofTask t argumentsOf) = none) {i : Nat} {a : Action}
    (ha : t.actions[i]? = some a) {e : Effect} (he : e ∈ a.effects)
    (hpos : e.literal.negated = false) (hconcerns : v.concerns e = true) :
    v.isTooHeavy (a.withInequalities (argumentsOf i)).heavy = false ∧
      v.unbalancedAction? (a.withInequalities (argumentsOf i)) = none := by
  rw [violation?, List.findSome?_eq_none_iff] at h
  have hmem : (⟨a.withInequalities (argumentsOf i),
      (a.withInequalities (argumentsOf i)).heavy⟩ : BalancedAction) ∈
        (BalancedAction.ofTask t argumentsOf).filter (·.threatens v) := by
    rw [List.mem_filter]
    refine ⟨List.mem_map.mpr ⟨(a, i), ?_, rfl⟩, ?_⟩
    · exact List.mem_zipIdx_iff_getElem?.mpr ha
    · rw [BalancedAction.threatens, List.any_eq_true]
      exact ⟨e, by rwa [Action.effects_withInequalities], by simp [hpos, hconcerns]⟩
  have h := h _ hmem
  split at h
  next => cases h
  next hheavy => exact ⟨by simpa using hheavy, h⟩

theorem Covers.basic (hv : v.IsWellFormed t) (ht : t.IsNormal) {params : List String} {b : Atom}
    (hc : v.Covers params b) :
    t.isDerived b = false ∧ ∃ name, b.predicate = .named name := by
  obtain ⟨part, hpart, -⟩ := covers_iff.mp hc
  obtain ⟨a, ha, e, he, hp⟩ := hv.modified part (List.mem_of_find?_eq_some hpart)
  have hpred : e.literal.atom.predicate = b.predicate :=
    hp.trans (by simpa using List.find?_some hpart)
  have hn := (ht.actions a ha).effects e he
  rw [← hpred, ← t.isDerived_congr hpred]
  exact ⟨hn.basic, hn.named⟩

section Step

variable (ht : t.IsNormal) (hv : v.IsWellFormed t)
  (hpass : v.violation? (BalancedAction.ofTask t argumentsOf) = none)
  (hreliable : v.IsReliable t argumentsOf)
  {s : Interpretation} (hs : t.Reachable s) {i : Nat} {a : Action}
  (ha : t.actions[i]? = some a) {args : List String} (happ : t.Applicable s a args)
  (hargs : args ∈ argumentsOf i) {params : List String}
include ht hv hpass hs ha happ hargs

omit hv in
theorem eq_of_added {b c : Atom} (hb : t.Triggers s a args b.positive)
    (hc : t.Triggers s a args c.positive) (hbs : b ∉ s) (hcs : c ∉ s)
    (hcb : v.Covers params b) (hcc : v.Covers params c) : b = c := by
  have han := ht.actions a (List.mem_of_getElem? ha)
  have hproper := ht.reachable_isProper hs
  obtain ⟨e, he, os, -, -, hl⟩ := id hb
  have hpos : e.literal.negated = false := congrArg Literal.negated hl
  have hconcerns := hcb.concerns (congrArg (·.atom.predicate) hl)
  obtain ⟨hheavy, -⟩ := of_violation?_eq_none hpass ha he hpos hconcerns
  exact eq_of_not_tooHeavy_withInequalities ht han hproper happ.1.areObjects happ.2 hargs hheavy
    hb hc hbs hcs hcb hcc

include hreliable in
/-- When a new atom is added the one that was true before is deleted for good. -/
theorem exists_deleted {b : Atom} (hb : t.Triggers s a args b.positive) (hbs : b ∉ s)
    (hcb : v.Covers params b) :
    ∃ c ∈ s, v.Covers params c ∧ c ∉ t.successor s a args := by
  have han := ht.actions a (List.mem_of_getElem? ha)
  have hproper := ht.reachable_isProper hs
  have han' := han.withInequalities (argumentsOf i)
  have happ' := Action.applicable_withInequalities han hproper happ hargs
  obtain ⟨e, he, os, hfire⟩ := (triggers_iff han').mp (Action.triggers_withInequalities.mpr hb)
  have hpos : e.literal.negated = false := congrArg Literal.negated hfire.literal
  have hconcerns := hcb.concerns (congrArg (·.atom.predicate) hfire.literal)
  have hea : e ∈ a.effects := by rwa [Action.effects_withInequalities] at he
  obtain ⟨-, hbalanced⟩ := of_violation?_eq_none hpass ha hea hpos hconcerns
  obtain ⟨d, hd, hneg, hbal⟩ := exists_balances hbalanced he hpos hconcerns
    (coveringRenamings_ne_nil han' he hfire hv.arity hcb)
  have hda : d ∈ a.effects := by rwa [Action.effects_withInequalities] at hd
  rcases hreliable.matched i a ha e hea d hda hpos hneg hbal with hcontra | ⟨θ, hθ⟩
  · exact absurd hcontra (not_contradictory_known han' happ' he hfire hproper hbs)
  · obtain ⟨c, hcs, hdel, hcc⟩ := hθ.exists_deleted han' happ' he hfire hd hneg hbs hcb
    have hdel := Action.triggers_withInequalities.mp hdel
    refine ⟨c, hcs, hcc, ?_⟩
    rintro (hadd | ⟨-, hkeep⟩)
    · exact hreliable.kept s hs a (List.mem_of_getElem? ha) args happ params b c hbs
        hcs hcb hcc hb hdel hadd
    · exact hkeep hdel

include hreliable in
/-- An applicable action leaves at most one atom of an instance true. -/
theorem atMostOne_successor (hone : v.AtMostOne params s) :
    v.AtMostOne params (t.successor s a args) := by
  -- a new atom is the only one
  have hnew : ∀ b ∈ t.successor s a args, b ∉ s → v.Covers params b →
      ∀ c ∈ t.successor s a args, v.Covers params c → b = c := by
    intro b hb hbs hcb c hc hcc
    have hadd : t.Triggers s a args b.positive := hb.resolve_right fun h => hbs h.1
    by_cases hcs : c ∈ s
    · obtain ⟨d, hds, hcd, hgone⟩ := exists_deleted ht hv hpass hreliable hs ha happ hargs
        hadd hbs hcb
      rw [hone c hcs d hds hcc hcd] at hc
      exact absurd hc hgone
    · exact eq_of_added ht hpass hs ha happ hargs hadd (hc.resolve_right fun h => hcs h.1)
        hbs hcs hcb hcc
  intro b hb c hc hcb hcc
  by_cases hbs : b ∈ s
  · by_cases hcs : c ∈ s
    · exact hone b hbs c hcs hcb hcc
    · exact (hnew c hc hcs hcc b hb hcb).symm
  · exact hnew b hb hbs hcb c hc hcc

end Step

/-- The axioms do not matter to the atoms that an invariant describes. -/
theorem AtMostOne.complete (ht : t.IsNormal) (hv : v.IsWellFormed t) {s : Interpretation}
    {params : List String} (h : v.AtMostOne params s) : v.AtMostOne params (t.complete s) := by
  intro b hb c hc hcb hcc
  rw [Task.mem_complete_of_not_derived _ (hcb.basic hv ht).1] at hb
  rw [Task.mem_complete_of_not_derived _ (hcc.basic hv ht).1] at hc
  exact h b hb c hc hcb hcc

theorem atMostOne_initialState (ht : t.IsNormal) (hv : v.IsWellFormed t) {params : List String}
    (hone : ∃! b, b ∈ t.init ∧ v.Covers params b) : v.AtMostOne params t.initialState := by
  refine AtMostOne.complete ht hv fun b hb c hc hcb hcc => hone.unique ⟨?_, hcb⟩ ⟨?_, hcc⟩
  · exact hb.resolve_right fun h => Task.not_mem_typeAtoms (hcb.basic hv ht).2 h
  · exact hc.resolve_right fun h => Task.not_mem_typeAtoms (hcc.basic hv ht).2 h

/-- An instance of an invariant that describes one initial atom describes at most
one true atom of every reachable state. -/
theorem atMostOne_of_reachable (ht : t.IsNormal) (hv : v.IsWellFormed t)
    (hpass : v.violation? (BalancedAction.ofTask t argumentsOf) = none)
    (hreliable : v.IsReliable t argumentsOf) (hlists : t.Lists argumentsOf)
    {params : List String} (hone : ∃! b, b ∈ t.init ∧ v.Covers params b)
    {s : Interpretation} (hs : t.Reachable s) : v.AtMostOne params s := by
  induction hs with
  | init => exact atMostOne_initialState ht hv hone
  | @step s a args hs ha happ ih =>
      obtain ⟨i, hi⟩ := List.mem_iff_getElem?.mp ha
      exact .complete ht hv
        (atMostOne_successor ht hv hpass hreliable hs hi happ (hlists s hs i a args hi happ) ih)

end Invariant
end FinitePlanning
