import FinitePlanning.Proofs.Invariant.Balance
import FinitePlanning.Proofs.Invariant.Preservation

/-!
Actions for which what the test finds is so. The test looks for some values of the
terms under which a deletion balances an addition, while it takes all of them. This
makes no difference where terms stand for each other only if they are the same:
where no objects are mentioned, additions are not universal, and the variables of
universal deletions take all values that the parameters of the action take.
-/

namespace FinitePlanning

open Grounding (valuesOf)

namespace ConstraintSystem

variable {σ : String → String} {s s' : ConstraintSystem}

theorem satisfiedBy_combine : (s.combine s').SatisfiedBy σ ↔ s.SatisfiedBy σ ∧ s'.SatisfiedBy σ := by
  constructor
  · intro h
    exact ⟨⟨fun a ha => h.equalities a (List.mem_append_left _ ha),
        fun d hd => h.inequalities d (List.mem_append_left _ hd)⟩,
      ⟨fun a ha => h.equalities a (List.mem_append_right _ ha),
        fun d hd => h.inequalities d (List.mem_append_right _ hd)⟩⟩
  · rintro ⟨h, h'⟩
    exact ⟨fun a ha => (List.mem_append.mp ha).elim (h.equalities a) (h'.equalities a),
      fun d hd => (List.mem_append.mp hd).elim (h.inequalities d) (h'.inequalities d)⟩

theorem SatisfiedBy.of_foldl_withAlternatives {alternatives : List (List TermPairs)}
    (h : (alternatives.foldl withAlternatives s).SatisfiedBy σ) :
    s.SatisfiedBy σ ∧ ∀ a ∈ alternatives, ∃ c ∈ a, c.SatisfiedBy σ := by
  induction alternatives generalizing s with
  | nil => exact ⟨h, nofun⟩
  | cons a alternatives ih =>
      obtain ⟨hs, hrest⟩ := ih h
      exact ⟨⟨fun b hb => hs.equalities b (List.mem_append_left _ hb), hs.inequalities⟩,
        List.forall_mem_cons.mpr
          ⟨hs.equalities a (List.mem_append_right _ (List.mem_singleton_self _)), hrest⟩⟩

theorem satisfiedBy_foldl_inequalities {pairs : TermPairs} :
    (pairs.foldl (fun s p => s.withInequalities [p]) s).SatisfiedBy σ ↔
      s.SatisfiedBy σ ∧ ∀ p ∈ pairs, σ p.1 ≠ σ p.2 := by
  induction pairs generalizing s with
  | nil => simp
  | cons p pairs ih =>
      rw [List.foldl_cons, ih, satisfiedBy_withInequalities]
      simp [and_assoc]

end ConstraintSystem

namespace Invariant

open ConstraintSystem

variable {σ : String → String}

theorem satisfiedBy_of_requireDistinct {s : ConstraintSystem} {a b : Atom}
    (h : (requireDistinct s a b).SatisfiedBy σ) : s.SatisfiedBy σ := by
  rw [requireDistinct] at h
  split at h
  next => exact (satisfiedBy_withInequalities.mp h).1
  next => exact h

/-- Each literal that a deletion needs is equated with a known one. -/
theorem exists_known_of_impliesDeletion {known : List Literal} {d : Effect}
    {implication : ConstraintSystem} (h : impliesDeletion? known d = some implication)
    (hσ : implication.SatisfiedBy σ) {l : Literal}
    (hl : l ∈ d.condition.literals ++ [d.literal.negate]) :
    ∃ k ∈ known, k.atom.predicate = l.atom.predicate ∧ k.negated = l.negated ∧
      TermPairs.SatisfiedBy (l.atom.args.zip k.atom.args) σ := by
  simp only [impliesDeletion?, Option.bind_eq_bind, Option.bind_eq_some_iff] at h
  obtain ⟨alternatives, halternatives, h⟩ := h
  cases h
  obtain ⟨-, hall⟩ := hσ.of_foldl_withAlternatives
  obtain ⟨options, hoptions, he⟩ :=
    exists_of_mem_forall₂ (forall₂_of_mapM_some halternatives) hl
  obtain ⟨c, hc, hcσ⟩ := hall options hoptions
  split at he
  next => cases he
  next =>
    cases he
    obtain ⟨k, hk, rfl⟩ := List.mem_map.mp hc
    simp only [List.mem_filter, Bool.and_eq_true, beq_iff_eq] at hk
    exact ⟨k, hk.1, hk.2.1, hk.2.2, hcσ⟩

section Covering

variable {t : Task} {v : Invariant} {a : Action} {e : Effect}

/-- The values of the parameters of an invariant that an addition determines. -/
def coveringValues (v : Invariant) (a : Action) (e : Effect) (part : InvariantPart) : Renaming :=
  (freshVariables a v.arity).zip (part.parameters e.literal.atom.args)

theorem coveringValues_apply_of_mem {part : InvariantPart} {x : String}
    (hx : x ∈ a.variableNames ∨ isVariable x = false) :
    (coveringValues v a e part).apply x = x := by
  refine Renaming.apply_of_not_mem fun hmem => ?_
  obtain ⟨⟨y, z⟩, hyz, rfl⟩ := List.mem_map.mp hmem
  obtain ⟨-, -, hfresh⟩ := freshVariables_spec a v.arity
  obtain ⟨hnew, hvar⟩ := hfresh y (List.of_mem_zip hyz).1
  rcases hx with hx | hx
  · exact hnew hx
  · rw [hvar] at hx
    cases hx

theorem coveringValues_fixObjects {part : InvariantPart} :
    FixesObjects (coveringValues v a e part).apply :=
  fun _ hx => coveringValues_apply_of_mem (.inr hx)

variable (ha : a.IsNormal t) (he : e ∈ a.effects) {part : InvariantPart}
include ha he

theorem coveringValues_apply_of_term {x : String} (hx : x ∈ e.literal.atom.args) :
    (coveringValues v a e part).apply x = x := by
  cases hvar : isVariable x with
  | false => exact coveringValues_apply_of_mem (.inr hvar)
  | true =>
      have hmem := (((ha.effects e he).literal.args x hx).1 hvar)
      rw [List.map_append, List.mem_append] at hmem
      exact coveringValues_apply_of_mem (.inl (hmem.elim Action.mem_variableNames_of_parameter
        (Action.mem_variableNames_of_effect he)))

theorem coveringValues_satisfies (hlen : part.arity = v.arity) :
    (part.assignment (freshVariables a v.arity) e.literal.atom.args).SatisfiedBy
      (coveringValues v a e part).apply := by
  obtain ⟨hfresh, hnodup, -⟩ := freshVariables_spec a v.arity
  refine TermPairs.satisfiedBy_zip ?_
  have hlen' : (freshVariables a v.arity).length =
      (part.parameters e.literal.atom.args).length := by
    rw [hfresh, InvariantPart.parameters, List.length_map]
    exact hlen.symm
  have hwrite := apply_zip_append hlen' hnodup []
  rw [List.append_nil] at hwrite
  rw [part.map_parameters coveringValues_fixObjects]
  refine hwrite.trans (congrArg part.parameters ?_)
  exact ((List.map_congr_left fun x hx => coveringValues_apply_of_term ha he hx).trans
    (List.map_id _)).symm

/-- Under a covering renaming the addition is covered, and the parameters of the action
differ. -/
theorem satisfiedBy_covering (hlen : part.arity = v.arity)
    (hpart : v.part? e.literal.atom.predicate = some part) {covering : ConstraintSystem}
    (h : covering ∈ v.coveringRenamings a e (freshVariables a v.arity)) {σ : String → String} :
    covering.SatisfiedBy σ ↔
      (part.assignment (freshVariables a v.arity) e.literal.atom.args).SatisfiedBy σ ∧
      ∀ x ∈ a.parameters.map (·.name), ∀ y ∈ a.parameters.map (·.name), x ≠ y → σ x ≠ σ y := by
  have hsat := coveringValues_satisfies (v := v) ha he hlen
  obtain ⟨m, hm⟩ := hsat.exists_mapping coveringValues_fixObjects
  simp only [coveringRenamings, hpart, hm, List.mem_singleton] at h
  obtain rfl := h
  rw [satisfiedBy_foldl_inequalities, satisfiedBy_withEqualities]
  have hapart : ∀ x ∈ a.parameters.map (·.name), ∀ y ∈ a.parameters.map (·.name), x ≠ y →
      Renaming.apply m x ≠ Renaming.apply m y := by
    intro x hx y hy hne heq
    have heq := congrArg (coveringValues v a e part).apply heq
    rw [hsat.apply_eq hm, hsat.apply_eq hm,
      coveringValues_apply_of_mem (.inl (Action.mem_variableNames_of_parameter hx)),
      coveringValues_apply_of_mem (.inl (Action.mem_variableNames_of_parameter hy))] at heq
    exact hne heq
  constructor
  · rintro ⟨⟨-, hassignment⟩, hne⟩
    refine ⟨hassignment, fun x hx y hy hxy => ?_⟩
    rcases pair_sublist hx hy hxy with hsub | hsub
    · exact hne (x, y) (List.mem_filter.mpr ⟨mem_pairs.mpr hsub,
        bne_iff_ne.mpr (hapart x hx y hy hxy)⟩)
    · exact (hne (y, x) (List.mem_filter.mpr ⟨mem_pairs.mpr hsub,
        bne_iff_ne.mpr (hapart y hy x hx hxy.symm)⟩)).symm
  · rintro ⟨hassignment, hne⟩
    refine ⟨⟨satisfiedBy_empty, hassignment⟩, fun p hp => ?_⟩
    obtain ⟨hp, -⟩ := List.mem_filter.mp hp
    have hsub := mem_pairs.mp hp
    refine hne p.1 (hsub.subset (by simp)) p.2 (hsub.subset (by simp)) ?_
    have hnodup := ha.parameters.nodup.sublist hsub
    simpa using hnodup

end Covering

end Invariant

/-- The literals of an action. -/
def Action.mentioned (a : Action) : List Literal :=
  a.precondition.literals ++ a.effects.flatMap fun e => e.condition.literals ++ [e.literal]

/-- An action whose terms stand for each other only if they are the same, and which
deletes atoms of a predicate that it adds only if it has no other addition. -/
structure Action.IsPlain (t : Task) (a : Action) : Prop where
  terms : ∀ l ∈ a.mentioned, ∀ x ∈ l.atom.args, isVariable x = true
  inequalities : ∀ l ∈ a.mentioned, l.atom.predicate = .equal → l.negated = true
  additions : ∀ e ∈ a.effects, e.literal.negated = false → e.parameters = []
  deletions : ∀ d ∈ a.effects, ∀ p ∈ d.parameters,
    (∃ l ∈ d.condition.literals ++ [d.literal], p.name ∈ l.atom.args) ∧
      ∀ q ∈ a.parameters, t.objectsOf q.type ⊆ t.objectsOf p.type
  single : ∀ e ∈ a.effects, ∀ f ∈ a.effects, ∀ d ∈ a.effects, e.literal.negated = false →
    f.literal.negated = false → d.literal.negated = true →
      d.literal.atom.predicate = f.literal.atom.predicate → e = f

namespace Action.IsPlain

variable {t : Task} {v : Invariant} {a : Action} {e d : Effect}

/-- All terms of the literals that are known are parameters of the action. -/
theorem mem_parameters_of_known (hp : a.IsPlain t) (ha : a.IsNormal t) (he : e ∈ a.effects)
    (hpos : e.literal.negated = false) {k : Literal} (hk : k ∈ Invariant.known a e) :
    ∀ x ∈ k.atom.args, x ∈ a.parameters.map (·.name) := by
  have hmentioned : ∃ l ∈ a.mentioned, l.atom = k.atom ∧
      l.atom.IsOver t ((a.parameters ++ e.parameters).map (·.name)) := by
    rw [Invariant.known, List.mem_append, List.mem_append] at hk
    rcases hk with (hk | hk) | hk
    · refine ⟨k, List.mem_append_left _ hk, rfl, (ha.precondition.literals k hk).mono ?_⟩
      exact List.map_subset _ (List.subset_append_left _ _)
    · exact ⟨k, List.mem_append_right _ (List.mem_flatMap.mpr
        ⟨e, he, List.mem_append_left _ hk⟩), rfl, (ha.effects e he).condition.literals k hk⟩
    · rw [List.mem_singleton.mp hk]
      exact ⟨e.literal, List.mem_append_right _ (List.mem_flatMap.mpr
        ⟨e, he, List.mem_append_right _ (List.mem_singleton_self _)⟩), rfl,
        (ha.effects e he).literal⟩
  obtain ⟨l, hl, hatom, hover⟩ := hmentioned
  intro x hx
  rw [← hatom] at hx
  have hmem := (hover.args x hx).1 (hp.terms l hl x hx)
  rwa [hp.additions e he hpos, List.append_nil] at hmem

theorem arity_known (ha : a.IsNormal t) (he : e ∈ a.effects) {k : Literal}
    (hk : k ∈ Invariant.known a e) : t.HasArity k.atom.predicate k.atom.args.length := by
  rw [Invariant.known, List.mem_append, List.mem_append] at hk
  rcases hk with (hk | hk) | hk
  · exact (ha.precondition.literals k hk).arity
  · exact ((ha.effects e he).condition.literals k hk).arity
  · rw [List.mem_singleton.mp hk]
    exact (ha.effects e he).literal.arity

theorem negated_of_known_equal (hp : a.IsPlain t) (ha : a.IsNormal t) (he : e ∈ a.effects)
    {k : Literal} (hk : k ∈ Invariant.known a e) (hequal : k.atom.predicate = .equal) :
    k.negated = true := by
  rw [Invariant.known, List.mem_append, List.mem_append] at hk
  rcases hk with (hk | hk) | hk
  · exact hp.inequalities k (List.mem_append_left _ hk) hequal
  · exact hp.inequalities k (List.mem_append_right _ (List.mem_flatMap.mpr
      ⟨e, he, List.mem_append_left _ hk⟩)) hequal
  · obtain ⟨name, hname⟩ := (ha.effects e he).named
    rw [List.mem_singleton.mp hk] at hequal
    exact absurd (hname.symm.trans hequal) (by simp)

/-- If no values of the parameters make the known literals true, they contradict each
other. -/
theorem contradictory_of_not_isSolvable (hp : a.IsPlain t) (ht : t.IsNormal)
    (ha : a.IsNormal t) (he : e ∈ a.effects) (hpos : e.literal.negated = false)
    {part : InvariantPart} (hlen : part.arity = v.arity)
    (hpart : v.part? e.literal.atom.predicate = some part) {covering : ConstraintSystem}
    (hcovering : covering ∈ v.coveringRenamings a e (Invariant.freshVariables a v.arity))
    (h : (Invariant.requireSatisfiable covering (Invariant.known a e)).isSolvable = false) :
    Invariant.Contradictory (Invariant.known a e) := by
  by_contra hcontra
  rw [Invariant.Contradictory, not_or] at hcontra
  obtain ⟨hopposite, hirreflexive⟩ := hcontra
  let σ := (Invariant.coveringValues v a e part).apply
  have hparam : ∀ x ∈ a.parameters.map (·.name), σ x = x := fun x hx =>
    Invariant.coveringValues_apply_of_mem (.inl (mem_variableNames_of_parameter hx))
  have hid : ∀ k ∈ Invariant.known a e, ∀ x ∈ k.atom.args, σ x = x := fun k hk x hx =>
    hparam x (hp.mem_parameters_of_known ha he hpos hk x hx)
  have hcover : covering.SatisfiedBy σ := by
    refine (Invariant.satisfiedBy_covering ha he hlen hpart hcovering).mpr
      ⟨Invariant.coveringValues_satisfies ha he hlen, fun x hx y hy hne => ?_⟩
    rwa [hparam x hx, hparam y hy]
  have hsat : (Invariant.requireSatisfiable covering (Invariant.known a e)).SatisfiedBy σ := by
    refine Invariant.satisfiedBy_requireSatisfiable_of hcover ?_ ?_
    · intro l hl s hs
      obtain ⟨⟨predicate, args⟩, negated⟩ := l
      match predicate, args with
      | .equal, [x, y] =>
          obtain rfl : negated = true := hp.negated_of_known_equal ha he hl rfl
          refine ConstraintSystem.satisfiedBy_withInequalities.mpr
            ⟨hs, (x, y), List.mem_singleton_self _, ?_⟩
          rw [hid _ hl x (by simp), hid _ hl y (by simp)]
          rintro rfl
          exact hirreflexive ⟨x, hl⟩
      | .equal, [] | .equal, [_] | .equal, _ :: _ :: _ :: _ | .named _, _ | .type _, _ =>
          exact hs
    · intro k hk n hn hkpos hneg hpred
      refine TermPairs.exists_ne_of_map_ne ?_ fun hargs => hopposite ⟨k, hk, ?_⟩
      · exact ht.arity_unique (arity_known ha he hn) (hpred ▸ arity_known ha he hk)
      · rw [List.map_congr_left (hid n hn), List.map_congr_left (hid k hk), List.map_id',
          List.map_id'] at hargs
        have hsame : k.negate = n := by
          obtain ⟨⟨kp, kargs⟩, kneg⟩ := k
          obtain ⟨⟨np, nargs⟩, nneg⟩ := n
          simp only at hkpos hneg hpred hargs
          rw [hkpos, hneg, hpred, hargs]
          rfl
        rwa [hsame]
  rw [hsat.isSolvable Invariant.coveringValues_fixObjects] at h
  cases h

section Match

/-- The parameter of an action that a term stands for. -/
def standIn (a : Action) (σ : String → String) (x : String) : String :=
  ((a.parameters.map (·.name)).find? fun y => σ y = σ x).getD x

/-- Terms for the variables of a deletion. -/
def standIns (a : Action) (d : Effect) (σ : String → String) : Renaming :=
  (d.parameters.map (·.name)).map fun x => (x, standIn a σ x)

theorem keys_standIns {σ : String → String} :
    (standIns a d σ).map (·.1) = d.parameters.map (·.name) := by
  rw [standIns, List.map_map, Function.comp_def, List.map_id']

theorem standIns_apply_of_mem {σ : String → String} {x : String}
    (hx : x ∈ d.parameters.map (·.name)) : (standIns a d σ).apply x = standIn a σ x := by
  rw [Renaming.apply, standIns, lookup_map_self hx]
  rfl

theorem standIns_fixObjects (hd : d.IsNormal t a.parameters) (σ : String → String) :
    FixesObjects (standIns a d σ).apply :=
  Renaming.fixesObjects fun _ hx =>
    hd.parameters.right.isVariable_of_mem (keys_standIns ▸ hx)

variable {σ : String → String}

theorem standIn_spec {x : String} (h : ∃ y ∈ a.parameters.map (·.name), σ y = σ x) :
    standIn a σ x ∈ a.parameters.map (·.name) ∧ σ (standIn a σ x) = σ x := by
  obtain ⟨y, hy, hσ⟩ := h
  obtain ⟨z, hz⟩ : ∃ z, (a.parameters.map (·.name)).find? (fun y => σ y = σ x) = some z :=
    Option.isSome_iff_exists.mp (List.find?_isSome.mpr ⟨y, hy, by simpa using hσ⟩)
  rw [standIn, hz]
  exact ⟨List.mem_of_find?_eq_some hz, by simpa using List.find?_some hz⟩

theorem eq_of_map_eq {names xs ys : List String}
    (hinj : ∀ x ∈ names, ∀ y ∈ names, σ x = σ y → x = y) (hxs : ∀ x ∈ xs, x ∈ names)
    (hys : ∀ y ∈ ys, y ∈ names) (h : xs.map σ = ys.map σ) : xs = ys := by
  induction xs generalizing ys with
  | nil => exact (List.map_eq_nil_iff.mp h.symm).symm
  | cons x xs ih =>
      cases ys with
      | nil => cases h
      | cons y ys =>
          rw [List.forall_mem_cons] at hxs hys
          rw [List.map_cons, List.map_cons, List.cons.injEq] at h
          rw [hinj x hxs.1 y hys.1 h.1, ih hxs.2 hys.2 h.2]

/-- A literal that a deletion needs is over the parameters of the action and its own. -/
theorem mentioned_of_needed (ha : a.IsNormal t) (hd : d ∈ a.effects) {l : Literal}
    (hl : l ∈ d.condition.literals ++ [d.literal.negate]) :
    (∃ m ∈ a.mentioned, m.atom = l.atom) ∧
      l.atom.IsOver t ((a.parameters ++ d.parameters).map (·.name)) := by
  rcases List.mem_append.mp hl with hl | hl
  · exact ⟨⟨l, List.mem_append_right _ (List.mem_flatMap.mpr
      ⟨d, hd, List.mem_append_left _ hl⟩), rfl⟩, (ha.effects d hd).condition.literals l hl⟩
  · rw [List.mem_singleton.mp hl]
    exact ⟨⟨d.literal, List.mem_append_right _ (List.mem_flatMap.mpr
      ⟨d, hd, List.mem_append_right _ (List.mem_singleton_self _)⟩), rfl⟩,
      (ha.effects d hd).literal⟩

variable (hp : a.IsPlain t) (ht : t.IsNormal) (ha : a.IsNormal t) (he : e ∈ a.effects)
  (hpos : e.literal.negated = false) (hd : d ∈ a.effects)
  (hinj : ∀ x ∈ a.parameters.map (·.name), ∀ y ∈ a.parameters.map (·.name), σ x = σ y → x = y)
  (hknown : ∀ l ∈ d.condition.literals ++ [d.literal.negate],
    ∃ k ∈ Invariant.known a e, k.atom.predicate = l.atom.predicate ∧ k.negated = l.negated ∧
      TermPairs.SatisfiedBy (l.atom.args.zip k.atom.args) σ)
include hp ht ha he hpos hd hknown

omit hp hpos in
theorem exists_known_map {l : Literal} (hl : l ∈ d.condition.literals ++ [d.literal.negate]) :
    ∃ k ∈ Invariant.known a e, k.atom.predicate = l.atom.predicate ∧ k.negated = l.negated ∧
      l.atom.args.map σ = k.atom.args.map σ := by
  obtain ⟨k, hk, hpred, hneg, hσ⟩ := hknown l hl
  refine ⟨k, hk, hpred, hneg, ?_⟩
  by_contra hne
  have hlen : l.atom.args.length = k.atom.args.length :=
    ht.arity_unique (mentioned_of_needed ha hd hl).2.arity (hpred ▸ arity_known ha he hk)
  obtain ⟨p, hp, hpσ⟩ := TermPairs.exists_ne_of_map_ne hlen hne
  exact hpσ (hσ p hp)

theorem standIns_spec {l : Literal} (hl : l ∈ d.condition.literals ++ [d.literal.negate])
    {x : String} (hx : x ∈ l.atom.args) :
    (standIns a d σ).apply x ∈ a.parameters.map (·.name) ∧
      σ ((standIns a d σ).apply x) = σ x := by
  obtain ⟨k, hk, -, -, hmap⟩ := exists_known_map ht ha he hd hknown hl
  have hmem : σ x ∈ k.atom.args.map σ := hmap ▸ List.mem_map_of_mem hx
  obtain ⟨y, hy, hσ⟩ := List.mem_map.mp hmem
  by_cases hown : x ∈ d.parameters.map (·.name)
  · rw [standIns_apply_of_mem hown]
    exact standIn_spec ⟨y, hp.mem_parameters_of_known ha he hpos hk y hy, hσ⟩
  · rw [Renaming.apply_of_not_mem (keys_standIns ▸ hown)]
    obtain ⟨⟨m, hm, hatom⟩, hover⟩ := mentioned_of_needed ha hd hl
    have hmem := (hover.args x hx).1 (hp.terms m hm x (hatom ▸ hx))
    rw [List.map_append, List.mem_append] at hmem
    exact ⟨hmem.resolve_right hown, rfl⟩

/-- The stand-ins of the parameters of a deletion have their types. -/
theorem hasType_standIns {p : Parameter} (hpd : p ∈ d.parameters) :
    Invariant.HasType t (a.parameters ++ e.parameters) ((standIns a d σ).apply p.name) p.type := by
  obtain ⟨⟨l, hl, hx⟩, htypes⟩ := hp.deletions d hd p hpd
  obtain ⟨m, hm, hatom⟩ : ∃ m ∈ d.condition.literals ++ [d.literal.negate], m.atom = l.atom := by
    rcases List.mem_append.mp hl with hl | hl
    · exact ⟨l, List.mem_append_left _ hl, rfl⟩
    · exact ⟨d.literal.negate, List.mem_append_right _ (List.mem_singleton_self _),
        by rw [List.mem_singleton.mp hl]; rfl⟩
  obtain ⟨hmem, -⟩ := standIns_spec hp ht ha he hpos hd hknown hm (hatom ▸ hx)
  obtain ⟨q, hq, hname⟩ := List.mem_map.mp hmem
  exact .inl ⟨q, List.mem_append_left _ hq, hname, htypes q hq⟩

include hinj

/-- The stand-ins make each literal that a deletion needs a known one. -/
theorem rename_standIns_mem {l : Literal}
    (hl : l ∈ d.condition.literals ++ [d.literal.negate]) :
    l.rename (standIns a d σ) ∈ Invariant.known a e := by
  obtain ⟨k, hk, hpred, hneg, hmap⟩ := exists_known_map ht ha he hd hknown hl
  have hspec := fun x hx => standIns_spec hp ht ha he hpos hd hknown hl (x := x) hx
  have hargs : l.atom.args.map (standIns a d σ).apply = k.atom.args := by
    refine eq_of_map_eq hinj ?_ (hp.mem_parameters_of_known ha he hpos hk) ?_
    · intro x hx
      obtain ⟨y, hy, rfl⟩ := List.mem_map.mp hx
      exact (hspec y hy).1
    · rw [List.map_map, ← hmap]
      exact List.map_congr_left fun x hx => (hspec x hx).2
  have hsame : l.rename (standIns a d σ) = k := by
    obtain ⟨⟨kp, kargs⟩, kneg⟩ := k
    simp only [Literal.rename, Atom.rename] at hpred hneg hargs ⊢
    rw [hpred, hneg, hargs]
  rwa [hsame]

/-- The stand-ins make the atom of the deletion one of the same instance of an invariant
as that of the addition. -/
theorem parameters?_standIns (hv : v.IsWellFormed t)
    {part part' : InvariantPart} (hpart : v.part? e.literal.atom.predicate = some part)
    (hpart' : v.part? d.literal.atom.predicate = some part')
    (hadd : (part.assignment (Invariant.freshVariables a v.arity)
      e.literal.atom.args).SatisfiedBy σ)
    (hdel : (part'.assignment (Invariant.freshVariables a v.arity)
      d.literal.atom.args).SatisfiedBy σ) :
    v.parameters? (d.literal.atom.rename (standIns a d σ)) = v.parameters? e.literal.atom := by
  have hspec : ∀ x ∈ d.literal.atom.args, (standIns a d σ).apply x ∈
      a.parameters.map (·.name) ∧ σ ((standIns a d σ).apply x) = σ x := fun x hx =>
    standIns_spec hp ht ha he hpos hd hknown (l := d.literal.negate)
      (List.mem_append_right _ (List.mem_singleton_self _)) hx
  have hterms : ∀ {f : Effect} {q : InvariantPart}, f ∈ a.effects →
      v.part? f.literal.atom.predicate = some q → q.UsesPositions f.literal.atom.args.length := by
    intro f q hf hq
    obtain ⟨n, hn, hpositions⟩ := hv.declared q (List.mem_of_find?_eq_some hq)
    have hpred : q.predicate = f.literal.atom.predicate := by simpa using List.find?_some hq
    rwa [ht.arity_unique (ha.effects f hf).literal.arity (hpred ▸ hn)]
  have hvalues : ∀ {f : Effect} {q : InvariantPart},
      v.part? f.literal.atom.predicate = some q →
      (q.assignment (Invariant.freshVariables a v.arity) f.literal.atom.args).SatisfiedBy σ →
      (Invariant.freshVariables a v.arity).map σ = (q.parameters f.literal.atom.args).map σ := by
    intro f q hq hsat
    by_contra hne
    have hlen : (Invariant.freshVariables a v.arity).length =
        (q.parameters f.literal.atom.args).length := by
      rw [(Invariant.freshVariables_spec a v.arity).1, InvariantPart.parameters, List.length_map]
      exact (hv.arity q (List.mem_of_find?_eq_some hq)).symm
    obtain ⟨p, hp, hpσ⟩ := TermPairs.exists_ne_of_map_ne hlen hne
    exact hpσ (hsat p hp)
  have hfix := standIns_fixObjects (ha.effects d hd) σ
  rw [Invariant.parameters?_rename hfix, Invariant.parameters?, Invariant.parameters?, hpart,
    hpart', Option.map_some, Option.map_some, Option.map_some]
  refine congrArg some (eq_of_map_eq hinj ?_ ?_ ?_)
  · intro x hx
    obtain ⟨y, hy, rfl⟩ := List.mem_map.mp hx
    exact (hspec y ((hterms hd hpart').mem_of_mem_parameters hy)).1
  · intro x hx
    refine hp.mem_parameters_of_known ha he hpos (k := e.literal.negate)
      (List.mem_append_right _ (List.mem_singleton_self _)) x ?_
    exact (hterms he hpart).mem_of_mem_parameters hx
  · rw [← hvalues hpart hadd, hvalues hpart' hdel, List.map_map]
    exact List.map_congr_left fun x hx =>
      (hspec x ((hterms hd hpart').mem_of_mem_parameters hx)).2

omit hknown hinj in
/-- A deletion of a plain action that is found to balance an addition matches it. -/
theorem matches_of_balances (hv : v.IsWellFormed t) (h : v.Balances a e d) :
    Invariant.Contradictory (Invariant.known a e) ∨ ∃ θ, Invariant.Matches t v a e d θ := by
  obtain ⟨part', covering, hpart', hcovering, hbalanced⟩ := h
  obtain ⟨part, hpart⟩ : ∃ part, v.part? e.literal.atom.predicate = some part := by
    cases hp : v.part? e.literal.atom.predicate with
    | none => simp [Invariant.coveringRenamings, hp] at hcovering
    | some part => exact ⟨part, rfl⟩
  have hlen := hv.arity part (List.mem_of_find?_eq_some hpart)
  rw [Invariant.staysUnbalanced] at hbalanced
  split at hbalanced
  next => cases hbalanced
  next =>
    dsimp only at hbalanced
    split at hbalanced
    next =>
      split at hbalanced
      next => cases hbalanced
      next implication himplication =>
        rw [Bool.not_eq_false', ConstraintSystem.isSolvable_iff] at hbalanced
        obtain ⟨σ, -, hσ⟩ := hbalanced
        obtain ⟨hσ, himplied⟩ := ConstraintSystem.satisfiedBy_combine.mp hσ
        obtain ⟨hσ, hcover⟩ := ConstraintSystem.satisfiedBy_combine.mp hσ
        obtain ⟨-, hdel⟩ := ConstraintSystem.satisfiedBy_withEqualities.mp
          (Invariant.satisfiedBy_of_requireDistinct hσ)
        obtain ⟨hadd, hne⟩ :=
          (Invariant.satisfiedBy_covering ha he hlen hpart hcovering).mp hcover
        have hinj : ∀ x ∈ a.parameters.map (·.name), ∀ y ∈ a.parameters.map (·.name),
            σ x = σ y → x = y := fun x hx y hy heq => by
          by_contra hxy
          exact hne x hx y hy hxy heq
        have hknown := fun l hl =>
          Invariant.exists_known_of_impliesDeletion himplication himplied (l := l) hl
        refine .inr ⟨standIns a d σ, ?_⟩
        constructor
        case keys => exact fun x hx => keys_standIns ▸ hx
        case literals =>
          exact fun l hl => rename_standIns_mem hp ht ha he hpos hd hinj hknown hl
        case parameters =>
          exact parameters?_standIns hp ht ha he hpos hd hinj hknown hv hpart hpart' hadd hdel
        case typed => exact fun _ => hasType_standIns hp ht ha he hpos hd hknown
    next hunsolvable =>
      exact .inl (hp.contradictory_of_not_isSolvable ht ha he hpos hlen hpart hcovering
        (by simpa using hunsolvable))

end Match

theorem withInequalities (hp : a.IsPlain t) (ha : a.IsNormal t)
    (instances : List (List String)) :
    (a.withInequalities instances).IsPlain t := by
  obtain ⟨ps, hps, hliterals⟩ := literals_withInequalities ha instances
  have hmentioned : ∀ l ∈ (a.withInequalities instances).mentioned,
      l ∈ a.mentioned ∨ ∃ p ∈ ps, l = a.inequality p := by
    intro l hl
    rw [mentioned, Condition.literals_of_conjunction hliterals, effects_withInequalities,
      List.append_assoc, List.mem_append, List.mem_append] at hl
    rcases hl with hl | hl | hl
    · exact .inl (List.mem_append_left _ hl)
    · obtain ⟨p, hp, rfl⟩ := List.mem_map.mp hl
      exact .inr ⟨p, hp, rfl⟩
    · exact .inl (List.mem_append_right _ hl)
  constructor
  case terms =>
    intro l hl x hx
    rcases hmentioned l hl with hl | ⟨p, hp, rfl⟩
    · exact hp.terms l hl x hx
    · have hname : ∀ i < a.parameters.length,
          isVariable (a.parameters.getD i default).name = true := by
        intro i hi
        rw [List.getD_eq_getElem _ _ hi]
        exact ha.parameters.isVariable _ (List.getElem_mem hi)
      rcases List.mem_cons.mp hx with rfl | hx
      · exact hname _ (hps p hp).1
      · rw [List.mem_singleton.mp hx]
        exact hname _ (hps p hp).2.1
  case inequalities =>
    intro l hl hequal
    rcases hmentioned l hl with hl | ⟨p, -, rfl⟩
    · exact hp.inequalities l hl hequal
    · rfl
  case additions =>
    rw [effects_withInequalities]
    exact hp.additions
  case deletions =>
    rw [effects_withInequalities, parameters_withInequalities]
    exact hp.deletions
  case single =>
    rw [effects_withInequalities]
    exact hp.single

end Action.IsPlain

/-- The test is right about plain actions. -/
theorem Invariant.isReliable_of_plain {t : Task} {v : Invariant} (ht : t.IsNormal)
    (hv : v.IsWellFormed t) (hp : ∀ a ∈ t.actions, a.IsPlain t)
    (argumentsOf : Nat → List (List String)) : v.IsReliable t argumentsOf where
  matched i a hi e he d hd hpos _ hbal := by
    have ha := List.mem_of_getElem? hi
    have hplain := (hp a ha).withInequalities (ht.actions a ha) (argumentsOf i)
    rw [← Action.effects_withInequalities a (argumentsOf i)] at he hd
    exact hplain.matches_of_balances ht ((ht.actions a ha).withInequalities _) he hpos hd hv hbal
  kept s _ a ha args _ params b c hb hc _ _ := by
    rintro ⟨e, he, os, hos, -, hadd⟩ ⟨d, hd, _, -, -, hdel⟩ ⟨f, hf, os', hos', -, hkeep⟩
    have hpos := congrArg Literal.negated hadd
    have hpos' := congrArg Literal.negated hkeep
    have hpred : d.literal.atom.predicate = f.literal.atom.predicate :=
      (congrArg (·.atom.predicate) hdel).trans (congrArg (·.atom.predicate) hkeep).symm
    obtain rfl := (hp a ha).single e he f hf d hd hpos hpos' (congrArg Literal.negated hdel) hpred
    rw [(hp a ha).additions e he hpos] at hos hos'
    obtain rfl := List.forall₂_nil_left_iff.mp hos
    obtain rfl := List.forall₂_nil_left_iff.mp hos'
    have hsame : b = c := congrArg Literal.atom (hadd.symm.trans hkeep)
    exact hb (hsame ▸ hc)
end FinitePlanning
