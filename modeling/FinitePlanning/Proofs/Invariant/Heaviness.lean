import Mathlib.Data.Set.Subsingleton
import FinitePlanning.Proofs.Invariant.Doubling
import FinitePlanning.Proofs.Invariant.Requirements

/-!
An action that is not too heavy adds at most one atom of each instance of an
invariant that was not true before.
-/

namespace FinitePlanning

open Grounding (valuesOf)

namespace Invariant

theorem freshVariables_spec (a : Action) (n : Nat) :
    (freshVariables a n).length = n ∧ (freshVariables a n).Nodup ∧
    ∀ x ∈ freshVariables a n, x ∉ a.variableNames ∧ isVariable x = true := by
  have hcandidates : ((List.range (n + a.variableNames.length)).map
      fun i => "?v" ++ toString i).Nodup :=
    List.Nodup.map (numbered_injective "?v") List.nodup_range
  have hmany := le_length_filter_not_mem a.variableNames n hcandidates
    (by simp)
  refine ⟨?_, ?_, ?_⟩
  · rw [freshVariables, List.length_take]
    exact Nat.min_eq_left hmany
  · exact (hcandidates.filter _).sublist (List.take_sublist n _)
  · intro x hx
    obtain ⟨hx, hfree⟩ := List.mem_filter.mp (List.mem_of_mem_take hx)
    obtain ⟨i, -, rfl⟩ := List.mem_map.mp hx
    exact ⟨by simpa using hfree, isVariable_append (by decide)⟩

/-- The values of the parameters of an invariant, followed by other ones. -/
theorem apply_of_mem_zip {ws params : List String} (hws : ws.Nodup) (r : Renaming)
    {p : String × String} (hp : p ∈ ws.zip params) :
    Renaming.apply (ws.zip params ++ r) p.1 = p.2 := by
  have hkeys : ((ws.zip params).map (·.1)).Nodup := by
    rw [List.zip_eq_zip_take_min, List.map_fst_zip (by simp)]
    exact hws.sublist (List.take_sublist _ _)
  rw [Renaming.apply_append_of_mem (List.mem_map_of_mem hp)]
  exact Renaming.apply_of_mem hkeys hp

theorem apply_zip_append {ws params : List String} (hlen : ws.length = params.length)
    (hws : ws.Nodup) (r : Renaming) :
    ws.map (Renaming.apply (ws.zip params ++ r)) = params := by
  refine List.ext_getElem (by simpa using hlen) fun i h₁ h₂ => ?_
  have hi : i < ws.length := by simpa using h₁
  rw [List.getElem_map]
  refine apply_of_mem_zip hws r (p := (ws[i], params[i])) (List.mem_of_getElem? (i := i) ?_)
  simp [hi, h₂]

end Invariant

namespace Invariant

variable {t : Task} {a : Action}

/-- The values of all variables in two instances of effects of one action, and of
the parameters of an invariant. -/
def pairValues (a : Action) (e f : Effect) (ws params args os os' : List String) : Renaming :=
  ws.zip params ++ (valuesOf f.parameters os' ++
    (valuesOf e.parameters os ++ valuesOf a.parameters args))

section Pair

variable {e f : Effect} {ws params args os os' : List String}
  (he : e.IsNormal t a.parameters) (hf : f.IsNormal t a.parameters)
  (hfe : ∀ x ∈ f.parameters.map (·.name), x ∉ (a.parameters ++ e.parameters).map (·.name))
  (hws : ∀ x ∈ ws, isVariable x = true ∧
    x ∉ (a.parameters ++ e.parameters ++ f.parameters).map (·.name))

include he hf hws in
theorem pairValues_fixObjects : FixesObjects (pairValues a e f ws params args os os').apply := by
  refine Renaming.fixesObjects fun x hx => ?_
  simp only [pairValues, List.map_append, List.mem_append] at hx
  rcases hx with hx | hx | hx | hx
  · obtain ⟨⟨y, o⟩, hmem, rfl⟩ := List.mem_map.mp hx
    exact (hws y (List.of_mem_zip hmem).1).1
  · exact hf.parameters.right.isVariable_of_mem (Grounding.mem_keys_valuesOf hx)
  · exact he.parameters.right.isVariable_of_mem (Grounding.mem_keys_valuesOf hx)
  · exact he.parameters.left.isVariable_of_mem (Grounding.mem_keys_valuesOf hx)

include hws in
theorem pairValues_apply {x : String}
    (hx : x ∈ (a.parameters ++ e.parameters ++ f.parameters).map (·.name)) :
    (pairValues a e f ws params args os os').apply x =
      (valuesOf f.parameters os' ++ (valuesOf e.parameters os ++
        valuesOf a.parameters args) : Renaming).apply x := by
  refine Renaming.apply_append_of_not_mem fun hmem => ?_
  obtain ⟨⟨y, o⟩, hyo, rfl⟩ := List.mem_map.mp hmem
  exact (hws y (List.of_mem_zip hyo).1).2 hx

include he hf hfe hws in
theorem rename_pairValues_left {l : Literal}
    (hl : l.atom.IsOver t ((a.parameters ++ e.parameters).map (·.name))) :
    l.rename (pairValues a e f ws params args os os') =
      l.rename (valuesOf e.parameters os ++ valuesOf a.parameters args) := by
  refine Literal.rename_congr hl (pairValues_fixObjects he hf hws)
    (inner_values_fixObjects he.parameters) fun x hx => ?_
  rw [pairValues_apply hws (by rw [List.map_append]; exact List.mem_append_left _ hx)]
  exact Renaming.apply_append_of_not_mem fun hmem =>
    hfe x (Grounding.mem_keys_valuesOf hmem) hx

include he hf hws in
theorem rename_pairValues_right (hlen : f.parameters.length = os'.length) {l : Literal}
    (hl : l.atom.IsOver t ((a.parameters ++ f.parameters).map (·.name))) :
    l.rename (pairValues a e f ws params args os os') =
      l.rename (valuesOf f.parameters os' ++ valuesOf a.parameters args) := by
  refine Literal.rename_congr hl (pairValues_fixObjects he hf hws)
    (inner_values_fixObjects hf.parameters) fun x hx => ?_
  rw [List.map_append, List.mem_append] at hx
  rw [pairValues_apply hws (by
    simp only [List.map_append, List.mem_append]
    exact hx.elim (fun h => .inl (.inl h)) .inr)]
  by_cases hxf : x ∈ f.parameters.map (·.name)
  · have hkey := (mem_keys_valuesOf_iff hlen).mpr hxf
    rw [Renaming.apply_append_of_mem hkey, Renaming.apply_append_of_mem hkey]
  · have hkey : x ∉ (valuesOf f.parameters os').map (·.1) := fun hmem =>
      hxf (Grounding.mem_keys_valuesOf hmem)
    rw [Renaming.apply_append_of_not_mem hkey, Renaming.apply_append_of_not_mem hkey]
    exact Renaming.apply_append_of_not_mem fun hmem =>
      he.parameters.disjoint (hx.resolve_right hxf) (Grounding.mem_keys_valuesOf hmem)

end Pair

/-- An instance of an effect makes a literal true. -/
structure Fires (t : Task) (s : Interpretation) (a : Action) (args : List String) (e : Effect)
    (os : List String) (l : Literal) : Prop where
  typed : t.Typed e.parameters os
  condition : AllHold s (e.condition.literals.map
    (·.rename (valuesOf e.parameters os ++ valuesOf a.parameters args)))
  literal : e.literal.rename (valuesOf e.parameters os ++ valuesOf a.parameters args) = l

theorem triggers_iff (ha : a.IsNormal t) {s : Interpretation} {args : List String}
    {l : Literal} :
    t.Triggers s a args l ↔ ∃ e ∈ a.effects, ∃ os, Fires t s a args e os l := by
  constructor
  · rintro ⟨e, he, os, hos, hcond, hl⟩
    exact ⟨e, he, os, hos, (ha.effects e he).condition.holds_iff.mp hcond, hl⟩
  · rintro ⟨e, he, os, hos, hcond, hl⟩
    exact ⟨e, he, os, hos, (ha.effects e he).condition.holds_iff.mpr hcond, hl⟩

theorem Fires.copy {s : Interpretation} {args os : List String} {e copy : Effect}
    {l : Literal} (hc : Action.CopyOf t a e copy) (h : Fires t s a args e os l) :
    Fires t s a args copy os l where
  typed := by
    have hlen : copy.parameters.length = e.parameters.length := by
      simpa using congrArg List.length hc.types
    have htypes : ∀ i (h₁ : i < copy.parameters.length) (h₂ : i < e.parameters.length),
        copy.parameters[i].type = e.parameters[i].type := by
      intro i h₁ h₂
      have := List.getElem_of_eq hc.types (i := i) (by simpa using h₁)
      simpa using this
    refine List.forall₂_iff_get.mpr ⟨hlen.trans h.typed.length_eq, fun i h₁ h₂ => ?_⟩
    have hi := (List.forall₂_iff_get.mp h.typed).2 i (hlen ▸ h₁) h₂
    simp only [List.get_eq_getElem] at hi ⊢
    rwa [htypes i h₁ (hlen ▸ h₁)]
  condition := by
    rw [hc.condition args os h.typed.length_eq]
    exact h.condition
  literal := (hc.literal args os h.typed.length_eq).trans h.literal

/-- The literals that are known to hold where an effect adds a new atom. -/
def known (a : Action) (e : Effect) : List Literal :=
  a.precondition.literals ++ e.condition.literals ++ [e.literal.negate]

section Known

variable (ha : a.IsNormal t) {e : Effect} (he : e.IsNormal t a.parameters)
include ha he

theorem known_isOver :
    ∀ l ∈ known a e, l.atom.IsOver t ((a.parameters ++ e.parameters).map (·.name)) := by
  intro l hl
  simp only [known, List.mem_append, List.mem_singleton] at hl
  rcases hl with (hl | hl) | rfl
  · exact (ha.precondition.literals l hl).mono (by simp)
  · exact he.condition.literals l hl
  · exact he.literal

variable {s : Interpretation} {args os : List String}
  (hpre : t.Holds s (valuesOf a.parameters args) a.precondition) {b : Atom}
  (hb : Fires t s a args e os b.positive) (hn : b ∉ s)
include hpre hb hn

/-- What is known holds where a new atom is added. -/
theorem allHold_known :
    AllHold s ((known a e).map
      (·.rename (valuesOf e.parameters os ++ valuesOf a.parameters args))) := by
  simp only [known, List.map_append, allHold_append, List.map_cons, List.map_nil, allHold_cons,
    allHold_nil, and_true]
  refine ⟨⟨?_, hb.condition⟩, ?_⟩
  · intro l hl
    obtain ⟨m, hm, rfl⟩ := List.mem_map.mp hl
    rw [Literal.rename_outer he.parameters (ha.precondition.literals m hm)]
    exact ha.precondition.holds_iff.mp hpre _ (List.mem_map_of_mem hm)
  · rw [show e.literal.negate.rename _ = (e.literal.rename _).negate from rfl, hb.literal,
      Literal.holds_negate, Literal.holds_positive]
    exact hn

/-- It also holds under values of more variables. -/
theorem holdsUnder_known (hobjects : t.AreObjects a.parameters args) {r : Renaming}
    (hr : ∀ {l : Literal}, l.atom.IsOver t ((a.parameters ++ e.parameters).map (·.name)) →
      l.rename r = l.rename (valuesOf e.parameters os ++ valuesOf a.parameters args)) :
    ∀ l ∈ known a e, HoldsUnder t s r.apply l := by
  intro l hl
  have hover := known_isOver ha he l hl
  exact holdsUnder_of_rename (hr hover)
    (hover.isGround_inner he.parameters hobjects hb.typed.areObjects)
    (allHold_known ha he hpre hb hn _ (List.mem_map_of_mem hl))

end Known

/-- The variables for the parameters of an invariant do not occur in the action. -/
theorem freshVariables_apart {e f : Effect} (he : e ∈ a.heavy.effects)
    (hf : f ∈ a.heavy.effects) (n : Nat) :
    ∀ x ∈ freshVariables a.heavy n, isVariable x = true ∧
      x ∉ (a.parameters ++ e.parameters ++ f.parameters).map (·.name) := by
  obtain ⟨-, -, hfresh⟩ := freshVariables_spec a.heavy n
  intro x hx
  refine ⟨(hfresh x hx).2, fun hmem => (hfresh x hx).1 ?_⟩
  simp only [List.map_append, List.mem_append] at hmem
  rcases hmem with (hmem | hmem) | hmem
  · exact Action.mem_variableNames_of_parameter (a := a.heavy) hmem
  · exact Action.mem_variableNames_of_effect he hmem
  · exact Action.mem_variableNames_of_effect hf hmem

/-- Two effects that add atoms of an instance are among the pairs that are tested. -/
theorem mem_pairs_of_covers {v : Invariant} {effects : List Effect} {e f : Effect}
    (hpair : [e, f].Sublist effects) {params params' : List String} {b b' : Atom}
    (hc : v.Covers params b) (hc' : v.Covers params' b') (he : e.literal.negated = false)
    (hf : f.literal.negated = false) (hb : e.literal.atom.predicate = b.predicate)
    (hb' : f.literal.atom.predicate = b'.predicate) :
    (e, f) ∈ pairs (effects.filter fun e => !e.literal.negated && v.concerns e) := by
  have hconcerns : ∀ x ∈ [e, f], (!x.literal.negated && v.concerns x) = true := by
    simp [he, hf, hc.concerns hb, hc'.concerns hb']
  have hfilter := hpair.filter fun x => !x.literal.negated && v.concerns x
  rw [List.filter_eq_self.mpr hconcerns] at hfilter
  exact mem_pairs.mpr hfilter

section Heavy

variable (ht : t.IsNormal) (ha : a.IsNormal t) {s : Interpretation} (hs : t.IsProper s)
  {args : List String} (hobjects : t.AreObjects a.parameters args)
  (hpre : t.Holds s (valuesOf a.parameters args) a.precondition) {v : Invariant}
include ht ha hs hobjects hpre

theorem isTooHeavy_of_pair {e f : Effect} (he : e.IsNormal t a.parameters)
    (hf : f.IsNormal t a.parameters)
    (hfe : ∀ x ∈ f.parameters.map (·.name), x ∉ (a.parameters ++ e.parameters).map (·.name))
    (hpair : [e, f].Sublist a.heavy.effects) {os os' params : List String} {b b' : Atom}
    (hb : Fires t s a args e os b.positive) (hb' : Fires t s a args f os' b'.positive)
    (hn : b ∉ s) (hn' : b' ∉ s) (hc : v.Covers params b) (hc' : v.Covers params b')
    (hne : b ≠ b') : v.isTooHeavy a.heavy = true := by
  have hws := freshVariables_apart (hpair.subset List.mem_cons_self)
    (hpair.subset (List.mem_cons_of_mem e List.mem_cons_self)) v.arity
  -- the values of all terms
  let r := pairValues a e f (freshVariables a.heavy v.arity) params args os os'
  have hfix : FixesObjects r.apply := pairValues_fixObjects he hf hws
  have hleft : ∀ {l : Literal}, l.atom.IsOver t ((a.parameters ++ e.parameters).map (·.name)) →
      l.rename r = l.rename (valuesOf e.parameters os ++ valuesOf a.parameters args) :=
    fun hl => rename_pairValues_left he hf hfe hws hl
  have hright : ∀ {l : Literal}, l.atom.IsOver t ((a.parameters ++ f.parameters).map (·.name)) →
      l.rename r = l.rename (valuesOf f.parameters os' ++ valuesOf a.parameters args) :=
    fun hl => rename_pairValues_right he hf hws hb'.typed.length_eq hl
  have hatom : e.literal.atom.eval r.apply = b :=
    congrArg Literal.atom ((hleft he.literal).trans hb.literal)
  have hatom' : f.literal.atom.eval r.apply = b' :=
    congrArg Literal.atom ((hright hf.literal).trans hb'.literal)
  have hvalues : ∀ p ∈ (freshVariables a.heavy v.arity).zip params, r.apply p.1 = p.2 :=
    fun p hp => apply_of_mem_zip (freshVariables_spec a.heavy v.arity).2.1 _ hp
  rw [isTooHeavy, List.any_eq_true]
  refine ⟨(e, f), mem_pairs_of_covers hpair hc hc' (congrArg Literal.negated hb.literal)
    (congrArg Literal.negated hb'.literal) (congrArg (·.atom.predicate) hb.literal)
    (congrArg (·.atom.predicate) hb'.literal), ?_⟩
  refine ConstraintSystem.SatisfiedBy.isSolvable hfix
    (satisfiedBy_requireSatisfiable ht hs ?_ fun l hl => ?_)
  · refine satisfiedBy_requireCovered hfix (satisfiedBy_requireCovered hfix
      (satisfiedBy_requireDistinct ConstraintSystem.satisfiedBy_empty ?_ ?_) hvalues ?_)
      hvalues ?_
    · intro hp
      exact ht.arity_unique he.literal.arity (hp ▸ hf.literal.arity)
    · rwa [hatom, hatom']
    · rwa [hatom]
    · rwa [hatom']
  · have hknown : l ∈ known a e ∨ l ∈ known a f := by
      simp only [Action.heavy, List.mem_append, List.mem_cons, List.not_mem_nil, or_false] at hl
      simp only [known, List.mem_append, List.mem_singleton]
      tauto
    rcases hknown with hl | hl
    · exact holdsUnder_known ha he hpre hb hn hobjects hleft l hl
    · exact holdsUnder_known ha hf hpre hb' hn' hobjects hright l hl

/-- Two effects add different new atoms. One of them comes first, with the other one or a copy of it
after it. -/
theorem isTooHeavy_of_ordered {e f : Effect} (he : e ∈ a.effects) (hf : f ∈ a.effects)
    (hafter : [e, f].Sublist a.effects ∨ e = f ∧ e ∈ a.effects ∧ e.parameters ≠ [])
    {os os' params : List String} {b b' : Atom} (hb : Fires t s a args e os b.positive)
    (hb' : Fires t s a args f os' b'.positive) (hn : b ∉ s) (hn' : b' ∉ s)
    (hc : v.Covers params b) (hc' : v.Covers params b') (hne : b ≠ b') :
    v.isTooHeavy a.heavy = true := by
  have hvars : ∀ e ∈ a.effects, ∀ p ∈ e.parameters, isVariable p.name = true :=
    fun e he => (ha.effects e he).parameters.right.isVariable
  obtain ⟨copy, hsub, hcopy⟩ := Action.exists_copy_after ⟨a.variableNames⟩ hvars hafter
  have hcopy := hcopy.copyOf (ha.effects f hf)
  have hfresh : ∀ x ∈ copy.parameters.map (·.name),
      x ∉ (a.parameters ++ e.parameters).map (·.name) := by
    intro x hx hmem
    rcases hcopy.fresh with hempty | hfresh
    · rw [hempty] at hx
      cases hx
    · refine hfresh x hx ?_
      rw [List.map_append, List.mem_append] at hmem
      exact hmem.elim Action.mem_variableNames_of_parameter (Action.mem_variableNames_of_effect he)
  exact isTooHeavy_of_pair ht ha hs hobjects hpre (ha.effects e he) hcopy.normal hfresh hsub hb
    (hb'.copy hcopy) hn hn' hc hc' hne

/-- If the action is not too heavy it adds at most one new atom. -/
theorem eq_of_not_tooHeavy (h : v.isTooHeavy a.heavy = false) {params : List String}
    {b b' : Atom} (hb : t.Triggers s a args b.positive) (hb' : t.Triggers s a args b'.positive)
    (hn : b ∉ s) (hn' : b' ∉ s) (hc : v.Covers params b) (hc' : v.Covers params b') :
    b = b' := by
  by_contra hne
  obtain ⟨e, he, os, hfire⟩ := (triggers_iff ha).mp hb
  obtain ⟨f, hf, os', hfire'⟩ := (triggers_iff ha).mp hb'
  refine Bool.false_ne_true (h.symm.trans ?_)
  by_cases hef : e = f
  · subst hef
    by_cases hempty : e.parameters = []
    · have hnil : os = [] ∧ os' = [] := by
        have h₁ := hfire.typed.length_eq
        have h₂ := hfire'.typed.length_eq
        rw [hempty] at h₁ h₂
        exact ⟨List.length_eq_zero_iff.mp h₁.symm, List.length_eq_zero_iff.mp h₂.symm⟩
      obtain ⟨rfl, rfl⟩ := hnil
      exact absurd (congrArg Literal.atom (hfire.literal.symm.trans hfire'.literal)) hne
    · exact isTooHeavy_of_ordered ht ha hs hobjects hpre he he (.inr ⟨rfl, he, hempty⟩) hfire
        hfire' hn hn' hc hc' hne
  · rcases pair_sublist he hf hef with hsub | hsub
    · exact isTooHeavy_of_ordered ht ha hs hobjects hpre he hf (.inl hsub) hfire hfire' hn hn' hc
        hc' hne
    · exact isTooHeavy_of_ordered ht ha hs hobjects hpre hf he (.inl hsub) hfire' hfire hn' hn hc'
        hc (Ne.symm hne)

end Heavy

/-- The same holds of an action whose parameters were required to differ where they do
in all its instances. -/
theorem eq_of_not_tooHeavy_withInequalities (ht : t.IsNormal) (ha : a.IsNormal t)
    {s : Interpretation} (hs : t.IsProper s) {args : List String}
    (hobjects : t.AreObjects a.parameters args)
    (hpre : t.Holds s (valuesOf a.parameters args) a.precondition)
    {instances : List (List String)} (hargs : args ∈ instances) {v : Invariant}
    (h : v.isTooHeavy (a.withInequalities instances).heavy = false) {params : List String}
    {b b' : Atom} (hb : t.Triggers s a args b.positive) (hb' : t.Triggers s a args b'.positive)
    (hn : b ∉ s) (hn' : b' ∉ s) (hc : v.Covers params b) (hc' : v.Covers params b') : b = b' := by
  have hpre' := Action.holds_withInequalities ha hs hobjects.length_eq hpre hargs
  have hparameters : (a.withInequalities instances).parameters = a.parameters :=
    Action.parameters_withInequalities
  exact eq_of_not_tooHeavy ht (ha.withInequalities instances) hs (hparameters ▸ hobjects)
    (hparameters ▸ hpre') h (Action.triggers_withInequalities.mpr hb)
    (Action.triggers_withInequalities.mpr hb') hn hn' hc hc'

/-- An action that is not too heavy for an invariant adds at most one new atom of each
instance of the invariant. -/
theorem adds_at_most_one (ht : t.IsNormal) (ha : a.IsNormal t)
    {instances : List (List String)} {v : Invariant}
    (h : v.isTooHeavy (a.withInequalities instances).heavy = false) :
    ∀ args ∈ instances, t.AreObjects a.parameters args → ∀ s, t.IsProper s →
      t.Holds s (valuesOf a.parameters args) a.precondition → ∀ params,
        ({b | v.Covers params b ∧ b ∉ s ∧ t.Triggers s a args b.positive} :
          Set Atom).Subsingleton := by
  rintro args hargs hobjects s hs hpre params b ⟨hc, hn, hb⟩ b' ⟨hc', hn', hb'⟩
  exact eq_of_not_tooHeavy_withInequalities ht ha hs hobjects hpre hargs h hb hb' hn hn' hc hc'

section Commuting

private def standsAt (x : String) : Literal := (Atom.named "at" [x]).positive

/-- A task in which the place to go to is found among all places. -/
def commuting : Task where
  domainName := "commute"
  problemName := "commute"
  requirements := []
  types := ⟨[objectType], []⟩
  objects := [⟨"home", objectType⟩, ⟨"work", objectType⟩]
  predicates := [⟨"at", [⟨"?x", objectType⟩], false⟩]
  functions := []
  init := [.named "at" ["home"], ⟨.equal, ["home", "home"]⟩, ⟨.equal, ["work", "work"]⟩]
  assignments := []
  goal := .literal (standsAt "work")
  actions := [{
    name := { name := "commute" }
    parameters := [⟨"?x", objectType⟩]
    external := 1
    precondition := .literal (standsAt "?x")
    effects := [
      ⟨[⟨"?y", objectType⟩], .literal (Atom.positive ⟨.equal, ["?y", "work"]⟩), standsAt "?y"⟩,
      ⟨[], .true, (standsAt "?x").negate⟩]
    cost := none }]
  axioms := []
  minimizesCost := false

def commute : Action := commuting.actions.head (by decide)

theorem commuting_isNormal : commuting.IsNormal where
  objects := by decide
  predicates := by decide
  init := by decide
  equal := by simp [commuting, Atom.named]
  goal := by decide
  actions := by decide
  axioms := nofun

/-- One is at one place at most. -/
def onePlace : Invariant := ⟨[⟨.named "at", [], some 0⟩]⟩

/-- The place to go to is the only one that is added. -/
theorem commuting_adds_one :
    ({b | onePlace.Covers [] b ∧ b ∉ {b | b ∈ commuting.init} ∧
      commuting.Triggers {b | b ∈ commuting.init} commute ["home"] b.positive} : Set Atom) =
        {.named "at" ["work"]} := by
  have hlight : onePlace.isTooHeavy (commute.withInequalities [["home"]]).heavy = false := by
    decide +kernel
  have hpre : commuting.Holds {b | b ∈ commuting.init} (valuesOf commute.parameters ["home"])
      commute.precondition := by
    show Atom.named "at" ["home"] ∈ commuting.init
    decide
  refine (adds_at_most_one commuting_isNormal
    (commuting_isNormal.actions commute List.mem_cons_self) hlight ["home"] List.mem_cons_self
    (.cons (by decide) .nil) {b | b ∈ commuting.init} commuting_isNormal.equal hpre
    []).eq_singleton_of_mem ⟨rfl, by decide, _, List.mem_cons_self, ["work"],
      .cons (by decide) .nil, ?_, rfl⟩
  show (⟨.equal, ["work", "work"]⟩ : Atom) ∈ commuting.init
  decide

end Commuting

end Invariant
end FinitePlanning
