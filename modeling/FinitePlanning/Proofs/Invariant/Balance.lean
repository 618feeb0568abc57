import FinitePlanning.Proofs.Invariant.Heaviness

/-!
What it takes for a deletion to balance an addition. The test finds values for
some terms under which the deletion follows from what is known. If variables of
the deletion alone need values, every instance of the addition comes with one of
the deletion.
-/

namespace FinitePlanning

open Grounding (valuesOf)

namespace Invariant

/-- The test finds that a deletion balances an addition. -/
def Balances (v : Invariant) (a : Action) (e d : Effect) : Prop :=
  ∃ part covering, v.part? d.literal.atom.predicate = some part ∧
    covering ∈ v.coveringRenamings a e (freshVariables a v.arity) ∧
    staysUnbalanced part (freshVariables a v.arity) (known a e) e d covering = false

/-- Literals that no state satisfies, because they contradict each other or one of
them says that a term differs from itself. -/
def Contradictory (ls : List Literal) : Prop :=
  (∃ l ∈ ls, l.negate ∈ ls) ∨ ∃ x, Atom.negative ⟨.equal, [x, x]⟩ ∈ ls

/-- Whatever a term stands for is an object of a type. -/
def HasType (t : Task) (ps : List Parameter) (x type : String) : Prop :=
  (∃ p ∈ ps, p.name = x ∧ t.objectsOf p.type ⊆ t.objectsOf type) ∨
    isVariable x = false ∧ x ∈ t.objectsOf type

/-- Terms for the variables of a deletion under which it takes place on an atom of
the same instance of the invariant, whenever the addition does. -/
structure Matches (t : Task) (v : Invariant) (a : Action) (e d : Effect) (θ : Renaming) :
    Prop where
  keys : ∀ x ∈ θ.map (·.1), x ∈ d.parameters.map (·.name)
  literals : ∀ l ∈ d.condition.literals ++ [d.literal.negate], l.rename θ ∈ known a e
  parameters : v.parameters? (d.literal.atom.rename θ) = v.parameters? e.literal.atom
  typed : ∀ p ∈ d.parameters, HasType t (a.parameters ++ e.parameters) (θ.apply p.name) p.type

/-- The renamings that the deletions leave unbalanced, as a search for the deletion
that balances the last one. -/
theorem exists_balancing {v : Invariant} {parameters : List String} {known : List Literal}
    {addition : Effect} {deletions : List Effect} {renamings : List ConstraintSystem}
    (hne : renamings ≠ [])
    (h : unbalancedRenamings? v parameters known addition deletions renamings = none) :
    ∃ d ∈ deletions, ∃ part covering, v.part? d.literal.atom.predicate = some part ∧
      covering ∈ renamings ∧
      staysUnbalanced part parameters known addition d covering = false := by
  induction deletions generalizing renamings with
  | nil => cases h
  | cons d deletions ih =>
      have htail : ∀ left, left ≠ [] → left ⊆ renamings →
          unbalancedRenamings? v parameters known addition deletions left = none →
          ∃ d' ∈ d :: deletions, ∃ part covering,
            v.part? d'.literal.atom.predicate = some part ∧ covering ∈ renamings ∧
            staysUnbalanced part parameters known addition d' covering = false := by
        intro left hne hsub h
        obtain ⟨d', hd, part, covering, hpart, hcov, hbal⟩ := ih hne h
        exact ⟨d', List.mem_cons_of_mem d hd, part, covering, hpart, hsub hcov, hbal⟩
      rw [unbalancedRenamings?] at h
      cases hpart : v.part? d.literal.atom.predicate with
      | none =>
          simp only [hpart, List.isEmpty_iff, hne, if_false] at h
          exact htail renamings hne (List.Subset.refl _) h
      | some part =>
          simp only [hpart] at h
          by_cases hleft : renamings.filter
              (staysUnbalanced part parameters known addition d) = []
          · obtain ⟨covering, hcov⟩ := List.exists_mem_of_ne_nil renamings hne
            refine ⟨d, List.mem_cons_self, part, covering, hpart, hcov, ?_⟩
            exact Bool.not_eq_true _ ▸ List.filter_eq_nil_iff.mp hleft covering hcov
          · simp only [List.isEmpty_iff, hleft, if_false] at h
            exact htail _ hleft List.filter_sublist.subset h

/-- Where the test finds nothing to complain of, each addition is balanced. -/
theorem exists_balances {v : Invariant} {a : Action} (h : v.unbalancedAction? a = none)
    {e : Effect} (he : e ∈ a.effects) (hpos : e.literal.negated = false)
    (hconcerns : v.concerns e = true)
    (hcov : v.coveringRenamings a e (freshVariables a v.arity) ≠ []) :
    ∃ d ∈ a.effects, d.literal.negated = true ∧ v.Balances a e d := by
  rw [unbalancedAction?, List.findSome?_eq_none_iff] at h
  have he := h e (by simp [he, hpos, hconcerns])
  simp only [unbalancedAddition?, Option.bind_eq_bind, Option.bind_eq_none_iff] at he
  cases hr : unbalancedRenamings? v (freshVariables a v.arity) (known a e) e
      ((a.effects.filter v.concerns).filter (·.literal.negated))
      (v.coveringRenamings a e (freshVariables a v.arity)) with
  | some left => exact absurd (he left hr) (by simp)
  | none =>
      obtain ⟨d, hd, part, covering, hpart, hc, hbal⟩ := exists_balancing hcov hr
      simp only [List.mem_filter] at hd
      exact ⟨d, hd.1.1, hd.2, part, covering, hpart, hc, hbal⟩

theorem parameters?_rename {v : Invariant} {r : Renaming} (hr : FixesObjects r.apply)
    (a : Atom) : v.parameters? (a.rename r) = (v.parameters? a).map (·.map r.apply) := by
  simp only [parameters?, Atom.rename, Option.map_map, Function.comp_def,
    InvariantPart.map_parameters hr]

section Instance

variable {t : Task} {a : Action} (ha : a.IsNormal t) {s : Interpretation}
  {args : List String} (happ : t.Applicable s a args) {e : Effect} (he : e ∈ a.effects)
  {os : List String} {b : Atom} (hb : Fires t s a args e os b.positive)

include ha happ he hb

theorem not_contradictory_known (hs : t.IsProper s) (hn : b ∉ s) :
    ¬ Contradictory (known a e) := by
  have hknown := allHold_known ha (ha.effects e he) happ.2 hb hn
  rintro (⟨l, hl, hl'⟩ | ⟨x, hx⟩)
  · have hnot := hknown _ (List.mem_map_of_mem hl')
    rw [show l.negate.rename _ = (l.rename _).negate from rfl, Literal.holds_negate] at hnot
    exact hnot (hknown _ (List.mem_map_of_mem hl))
  · have hnot := hknown _ (List.mem_map_of_mem hx)
    rw [show (Atom.negative ⟨.equal, [x, x]⟩).rename _ =
      (Atom.rename _ ⟨.equal, [x, x]⟩).negative from rfl, Literal.holds_negative] at hnot
    have hground := (known_isOver ha (ha.effects e he) _ hx).isGround_inner
      (ha.effects e he).parameters happ.1.areObjects hb.typed.areObjects
    exact hnot ((hs _).mpr ⟨_, hground.args _ List.mem_cons_self, rfl⟩)

omit happ in
/-- The constraints that an addition is covered are satisfiable. -/
theorem coveringRenamings_ne_nil {v : Invariant} (hv : ∀ part ∈ v.parts, part.arity = v.arity)
    {params : List String} (hc : v.Covers params b) :
    v.coveringRenamings a e (freshVariables a v.arity) ≠ [] := by
  obtain ⟨hlen, hnodup, hfresh⟩ := freshVariables_spec a v.arity
  have hatom : e.literal.atom.rename
      (valuesOf e.parameters os ++ valuesOf a.parameters args) = b :=
    congrArg Literal.atom hb.literal
  obtain ⟨part, hpart, hparams⟩ := covers_iff.mp hc
  have hpart' : v.part? e.literal.atom.predicate = some part := by rwa [← hatom] at hpart
  have hparamsLen : (freshVariables a v.arity).length = params.length :=
    hlen.trans (hc.length_eq hv).symm
  let r : Renaming := (freshVariables a v.arity).zip params ++
    (valuesOf e.parameters os ++ valuesOf a.parameters args)
  have hkeys : ∀ x ∈ ((freshVariables a v.arity).zip params).map (·.1),
      x ∈ freshVariables a v.arity := by
    intro x hx
    obtain ⟨⟨y, o⟩, hyo, rfl⟩ := List.mem_map.mp hx
    exact (List.of_mem_zip hyo).1
  have hfix : FixesObjects r.apply := by
    refine Renaming.fixesObjects fun x hx => ?_
    rw [List.map_append, List.mem_append] at hx
    rcases hx with hx | hx
    · exact (hfresh x (hkeys x hx)).2
    · rw [List.map_append, List.mem_append] at hx
      exact hx.elim (fun hx => (ha.effects e he).parameters.right.isVariable_of_mem
          (Grounding.mem_keys_valuesOf hx))
        fun hx => ha.parameters.isVariable_of_mem (Grounding.mem_keys_valuesOf hx)
  have hsame : e.literal.rename r =
      e.literal.rename (valuesOf e.parameters os ++ valuesOf a.parameters args) := by
    refine Literal.rename_congr (ha.effects e he).literal hfix
      (inner_values_fixObjects (ha.effects e he).parameters) fun x hx => ?_
    refine Renaming.apply_append_of_not_mem fun hmem => (hfresh x (hkeys x hmem)).1 ?_
    rw [List.map_append, List.mem_append] at hx
    exact hx.elim Action.mem_variableNames_of_parameter
      (Action.mem_variableNames_of_effect he)
  have hsat : (part.assignment (freshVariables a v.arity) e.literal.atom.args).SatisfiedBy
      r.apply := by
    refine TermPairs.satisfiedBy_zip ?_
    rw [part.map_parameters hfix, show (freshVariables a v.arity).map r.apply = params from
      apply_zip_append hparamsLen hnodup _, ← hparams]
    have hargs : e.literal.atom.args.map r.apply = b.args :=
      congrArg (·.atom.args) (hsame.trans hb.literal)
    rw [hargs]
  obtain ⟨mapping, hmapping⟩ := hsat.exists_mapping hfix
  simp [coveringRenamings, hpart', hmapping]

omit happ he hb in
/-- The values that a match gives to the parameters of a deletion. -/
theorem Matches.rename_rename {v : Invariant} {d : Effect} (hd : d ∈ a.effects) {θ : Renaming}
    (hθ : Matches t v a e d θ) {r : Renaming} (hr : FixesObjects r.apply)
    (hout : ∀ x ∈ a.parameters.map (·.name),
      r.apply x = (valuesOf a.parameters args).apply x) {l : Literal}
    (hl : l.atom.IsOver t ((a.parameters ++ d.parameters).map (·.name))) :
    l.rename (valuesOf d.parameters (d.parameters.map fun p => r.apply (θ.apply p.name)) ++
      valuesOf a.parameters args) = (l.rename θ).rename r := by
  have hdvars := (ha.effects d hd).parameters
  have hfixθ : FixesObjects θ.apply := Renaming.fixesObjects fun x hx =>
    hdvars.right.isVariable_of_mem (hθ.keys x hx)
  have hargs : ∀ x ∈ l.atom.args,
      (valuesOf d.parameters (d.parameters.map fun p => r.apply (θ.apply p.name)) ++
        valuesOf a.parameters args : Renaming).apply x = r.apply (θ.apply x) := by
    intro x hx
    cases hvar : isVariable x with
    | false =>
        rw [inner_values_fixObjects hdvars x hvar, hfixθ x hvar, hr x hvar]
    | true =>
        have hx := (hl.args x hx).1 hvar
        rw [List.map_append, List.mem_append] at hx
        rcases hx with hx | hx
        · rw [Renaming.apply_append_of_not_mem fun hmem =>
            hdvars.disjoint hx (Grounding.mem_keys_valuesOf hmem),
            Renaming.apply_of_not_mem fun hmem => hdvars.disjoint hx (hθ.keys x hmem),
            hout x hx]
        · rw [Renaming.apply_append_of_mem ((mem_keys_valuesOf_iff (by simp)).mpr hx)]
          obtain ⟨p, hp, rfl⟩ := List.mem_map.mp hx
          obtain ⟨i, hi, rfl⟩ := List.mem_iff_getElem.mp hp
          exact Grounding.apply_valuesOf hdvars.right.nodup (by simp)
            (List.getElem?_eq_getElem hi) (by simp [hi])
  simp only [Literal.rename, Atom.rename, List.map_map, Function.comp_def,
    List.map_congr_left hargs]

/-- A deletion with a match takes place whenever the addition adds a new atom, on an
atom of the same instance of the invariant that was true before. -/
theorem Matches.exists_deleted {v : Invariant} {d : Effect} (hd : d ∈ a.effects)
    (hneg : d.literal.negated = true) {θ : Renaming} (hθ : Matches t v a e d θ) (hn : b ∉ s)
    {params : List String} (hc : v.Covers params b) :
    ∃ c ∈ s, t.Triggers s a args c.negative ∧ v.Covers params c := by
  have hevars := (ha.effects e he).parameters
  have hdvars := (ha.effects d hd).parameters
  let r : Renaming := valuesOf e.parameters os ++ valuesOf a.parameters args
  have hfix : FixesObjects r.apply := inner_values_fixObjects hevars
  have hfixθ : FixesObjects θ.apply := Renaming.fixesObjects fun x hx =>
    hdvars.right.isVariable_of_mem (hθ.keys x hx)
  have hout : ∀ x ∈ a.parameters.map (·.name),
      r.apply x = (valuesOf a.parameters args).apply x := fun x hx =>
    Renaming.apply_append_of_not_mem fun hmem =>
      hevars.disjoint hx (Grounding.mem_keys_valuesOf hmem)
  have htyped : t.Typed d.parameters (d.parameters.map fun p => r.apply (θ.apply p.name)) := by
    refine List.forall₂_map_right_iff.mpr (List.forall₂_same.mpr fun p hp => ?_)
    rcases hθ.typed p hp with ⟨q, hq, hname, hsub⟩ | ⟨hconst, hobject⟩
    · rw [← hname]
      exact hsub (inner_values_typed hevars happ.1 hb.typed hq)
    · rw [hfix _ hconst]
      exact hobject
  have hrename := fun {l : Literal} hl => hθ.rename_rename ha hd hfix hout (l := l) hl
  have hholds : ∀ l ∈ d.condition.literals ++ [d.literal.negate],
      ((l.rename θ).rename r).Holds s := fun l hl =>
    allHold_known ha (ha.effects e he) happ.2 hb hn _ (List.mem_map_of_mem (hθ.literals l hl))
  have hdover := (ha.effects d hd).literal
  refine ⟨(d.literal.atom.rename θ).rename r, ?_, ?_, ?_⟩
  · have htrue := hholds d.literal.negate (List.mem_append_right _ (List.mem_singleton_self _))
    rw [show (d.literal.negate.rename θ).rename r = ((d.literal.rename θ).rename r).negate
      from rfl, Literal.holds_negate] at htrue
    have hlit : (d.literal.rename θ).rename r =
        ((d.literal.atom.rename θ).rename r).negative := by
      rw [Atom.negative, ← hneg]
      rfl
    rw [hlit, Literal.holds_negative, not_not] at htrue
    exact htrue
  · refine (triggers_iff ha).mpr ⟨d, hd, _, htyped, ?_, ?_⟩
    · intro l hl
      obtain ⟨m, hm, rfl⟩ := List.mem_map.mp hl
      rw [hrename ((ha.effects d hd).condition.literals m hm)]
      exact hholds m (List.mem_append_left _ hm)
    · rw [hrename hdover, Atom.negative, ← hneg]
      rfl
  · have hatom : e.literal.atom.rename r = b := congrArg Literal.atom hb.literal
    rw [Covers, parameters?_rename hfix, hθ.parameters, ← parameters?_rename hfix, hatom]
    exact hc

end Instance
end Invariant
end FinitePlanning
