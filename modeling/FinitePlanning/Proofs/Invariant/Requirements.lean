import Mathlib.Data.List.GetD
import FinitePlanning.Invariant.Balance
import FinitePlanning.Proofs.Invariant.Constraints

/-!
The constraints that the test of invariants collects are satisfied by the values that the terms have
in an instance of an action: if two atoms differ, if an atom is covered, and if literals hold in a
state. Parameters that differ in all instances of an action may be required to differ: what is
applicable stays so.
-/

namespace FinitePlanning

variable {σ : String → String}

/-- The instance of an atom under values of its arguments. -/
def Atom.eval (σ : String → String) (a : Atom) : Atom := { a with args := a.args.map σ }

def Literal.eval (σ : String → String) (l : Literal) : Literal :=
  { l with atom := l.atom.eval σ }

/-- Of the equalities exactly the trivial ones hold. -/
def Task.IsProper (t : Task) (s : Interpretation) : Prop :=
  ∀ args, (⟨.equal, args⟩ : Atom) ∈ s ↔ ∃ o ∈ t.objects.map (·.name), args = [o, o]

theorem Task.IsNormal.arity_unique {t : Task} (ht : t.IsNormal) {p : Predicate} {m n : Nat}
    (hm : t.HasArity p m) (hn : t.HasArity p n) : m = n := by
  cases p with
  | named name =>
      obtain ⟨q, hq, rfl, rfl⟩ := hm
      obtain ⟨r, hr, hname, rfl⟩ := hn
      rw [List.inj_on_of_nodup_map ht.predicates hr hq hname]
  | type name => exact Eq.trans hm (Eq.symm hn)
  | equal => exact Eq.trans hm (Eq.symm hn)

namespace TermPairs

theorem satisfiedBy_zip {as bs : List String} (h : as.map σ = bs.map σ) :
    TermPairs.SatisfiedBy (as.zip bs) σ := by
  induction as generalizing bs with
  | nil => nofun
  | cons a as ih =>
      cases bs with
      | nil => nofun
      | cons b bs =>
          rw [List.map_cons, List.map_cons, List.cons.injEq] at h
          intro p hp
          rcases List.mem_cons.mp hp with rfl | hp
          · exact h.1
          · exact ih h.2 p hp

/-- Terms with given values equal other terms that have the same ones. -/
theorem satisfiedBy_zip_of_values {as bs values : List String}
    (h : ∀ p ∈ as.zip values, σ p.1 = p.2) (hbs : bs.map σ = values) :
    TermPairs.SatisfiedBy (as.zip bs) σ := by
  intro p hp
  have hmem : (p.1, σ p.2) ∈ as.zip values := by
    rw [← hbs, List.zip_map_right]
    exact List.mem_map_of_mem hp
  exact h _ hmem

theorem exists_ne_of_map_ne {as bs : List String} (hlen : as.length = bs.length)
    (h : as.map σ ≠ bs.map σ) : ∃ p ∈ as.zip bs, σ p.1 ≠ σ p.2 := by
  induction as generalizing bs with
  | nil =>
      cases bs with
      | nil => exact absurd rfl h
      | cons b bs => cases hlen
  | cons a as ih =>
      cases bs with
      | nil => cases hlen
      | cons b bs =>
          by_cases hab : σ a = σ b
          · have hne : as.map σ ≠ bs.map σ := by
              intro he
              exact h (by rw [List.map_cons, List.map_cons, hab, he])
            obtain ⟨p, hp, hpσ⟩ := ih (Nat.succ.inj hlen) hne
            exact ⟨p, List.mem_cons_of_mem _ hp, hpσ⟩
          · exact ⟨(a, b), List.mem_cons_self, hab⟩

end TermPairs

namespace InvariantPart

theorem map_parameters (hσ : FixesObjects σ) (p : InvariantPart) (args : List String) :
    (p.parameters args).map σ = p.parameters (args.map σ) := by
  simp only [parameters, List.map_map, List.map_inj_left, Function.comp_def]
  intro i _
  have hdefault : σ default = default := hσ default rfl
  simp only [List.getD_eq_getElem?_getD, List.getElem?_map]
  cases args[i]? with
  | none => exact hdefault
  | some x => rfl

end InvariantPart

namespace Invariant

open ConstraintSystem

/-- An instance of an invariant describes an atom. -/
def Covers (v : Invariant) (parameters : List String) (a : Atom) : Prop :=
  v.parameters? a = some parameters

instance (v : Invariant) (parameters : List String) (a : Atom) :
    Decidable (v.Covers parameters a) :=
  inferInstanceAs (Decidable (_ = _))

theorem covers_iff {v : Invariant} {parameters : List String} {a : Atom} :
    v.Covers parameters a ↔
      ∃ part, v.part? a.predicate = some part ∧ part.parameters a.args = parameters := by
  simp [Covers, parameters?]

theorem Covers.concerns {v : Invariant} {parameters : List String} {a : Atom}
    (h : v.Covers parameters a) {e : Effect} (he : e.literal.atom.predicate = a.predicate) :
    v.concerns e = true := by
  obtain ⟨part, hpart, -⟩ := covers_iff.mp h
  rw [Invariant.concerns, he, hpart]
  rfl

theorem Covers.length_eq {v : Invariant} (harity : ∀ p ∈ v.parts, p.arity = v.arity)
    {parameters : List String} {a : Atom} (h : v.Covers parameters a) :
    parameters.length = v.arity := by
  obtain ⟨part, hpart, rfl⟩ := covers_iff.mp h
  rw [InvariantPart.parameters, List.length_map]
  exact harity part (List.mem_of_find?_eq_some hpart)

section

variable {s : ConstraintSystem} {a b : Atom}

theorem satisfiedBy_requireDistinct (h : s.SatisfiedBy σ)
    (hlen : a.predicate = b.predicate → a.args.length = b.args.length)
    (hne : a.eval σ ≠ b.eval σ) : (requireDistinct s a b).SatisfiedBy σ := by
  rw [requireDistinct]
  split
  next hp =>
    simp only [Bool.and_eq_true, decide_eq_true_eq] at hp
    refine satisfiedBy_withInequalities.mpr
      ⟨h, TermPairs.exists_ne_of_map_ne (hlen hp.1) fun he => hne ?_⟩
    simp only [Atom.eval, hp.1, he]
  next => exact h

theorem satisfiedBy_requireCovered (hσ : FixesObjects σ) (h : s.SatisfiedBy σ) {v : Invariant}
    {parameters values : List String} (hvalues : ∀ p ∈ parameters.zip values, σ p.1 = p.2)
    (hc : v.Covers values (a.eval σ)) : (v.requireCovered s a parameters).SatisfiedBy σ := by
  obtain ⟨part, hpart, hp⟩ := covers_iff.mp hc
  have hpart' : v.part? a.predicate = some part := hpart
  simp only [requireCovered, hpart']
  refine satisfiedBy_withEqualities.mpr ⟨h, TermPairs.satisfiedBy_zip_of_values hvalues ?_⟩
  rw [part.map_parameters hσ]
  exact hp

end

section Literals

variable {t : Task} {st : Interpretation} {s : ConstraintSystem}

/-- A literal holds in a state under values of its terms, which are objects. -/
structure HoldsUnder (t : Task) (st : Interpretation) (σ : String → String) (l : Literal) :
    Prop where
  ground : (l.atom.eval σ).IsGround t
  holds : (l.eval σ).Holds st

theorem holdsUnder_of_rename {r q : Renaming} {l : Literal} (he : l.rename r = l.rename q)
    (hg : (l.atom.rename q).IsGround t) (hl : (l.rename q).Holds st) :
    HoldsUnder t st r.apply l := by
  have hatom : l.atom.eval r.apply = l.atom.rename q := congrArg Literal.atom he
  have hliteral : l.eval r.apply = l.rename q := he
  exact ⟨hatom ▸ hg, hliteral ▸ hl⟩

theorem satisfiedBy_requireEquality (hst : t.IsProper st) (h : s.SatisfiedBy σ) {l : Literal}
    (hl : HoldsUnder t st σ l) : (requireEquality s l).SatisfiedBy σ := by
  obtain ⟨⟨predicate, args⟩, negated⟩ := l
  match predicate, args with
  | .equal, [x, y] =>
      have hmem : ((⟨⟨.equal, [x, y]⟩, negated⟩ : Literal).eval σ).atom ∈ st ↔ σ x = σ y := by
        rw [show ((⟨⟨.equal, [x, y]⟩, negated⟩ : Literal).eval σ).atom =
          ⟨.equal, [σ x, σ y]⟩ from rfl, hst]
        constructor
        · rintro ⟨o, -, he⟩
          obtain ⟨rfl, he⟩ := List.cons.inj he
          exact (List.cons.inj he).1.symm
        · intro he
          exact ⟨σ x, hl.ground.args _ List.mem_cons_self, by rw [he]⟩
      have hholds := hl.holds
      cases negated with
      | true =>
          refine satisfiedBy_withInequalities.mpr ⟨h, (x, y), List.mem_singleton_self _, ?_⟩
          intro he
          have hfalse : (⟨.equal, [σ x, σ y]⟩ : Atom) ∉ st := by
            simpa [Literal.Holds, Literal.eval, Atom.eval] using hholds
          exact hfalse (hmem.mpr he)
      | false =>
          refine satisfiedBy_withEqualities.mpr ⟨h, fun p hp => ?_⟩
          obtain rfl := List.mem_singleton.mp hp
          exact hmem.mp hholds
  | .equal, [] | .equal, [_] | .equal, _ :: _ :: _ :: _ | .named _, _ | .type _, _ => exact h

/-- Literals hold together under a valuation that satisfies the equality literals and
makes atoms of opposite literals different. -/
theorem satisfiedBy_requireSatisfiable_of (h : s.SatisfiedBy σ) {literals : List Literal}
    (hequal : ∀ l ∈ literals, ∀ s : ConstraintSystem, s.SatisfiedBy σ →
      (requireEquality s l).SatisfiedBy σ)
    (hclash : ∀ p ∈ literals, ∀ n ∈ literals, p.negated = false → n.negated = true →
      n.atom.predicate = p.atom.predicate →
        ∃ q ∈ n.atom.args.zip p.atom.args, σ q.1 ≠ σ q.2) :
    (requireSatisfiable s literals).SatisfiedBy σ := by
  have hequalities : ∀ (ls : List Literal) (s : ConstraintSystem), ls ⊆ literals →
      s.SatisfiedBy σ → (ls.foldl requireEquality s).SatisfiedBy σ := by
    intro ls
    induction ls with
    | nil => exact fun s _ h => h
    | cons l ls ih =>
        intro s hsub h
        exact ih _ (fun m hm => hsub (List.mem_cons_of_mem l hm))
          (hequal l (hsub List.mem_cons_self) s h)
  have hclashes : ∀ (ds : List TermPairs) (s : ConstraintSystem),
      (∀ d ∈ ds, ∃ p ∈ d, σ p.1 ≠ σ p.2) → s.SatisfiedBy σ →
        (ds.foldl withInequalities s).SatisfiedBy σ := by
    intro ds
    induction ds with
    | nil => exact fun s _ h => h
    | cons d ds ih =>
        intro s hds h
        exact ih _ (fun e he => hds e (List.mem_cons_of_mem d he))
          (satisfiedBy_withInequalities.mpr ⟨h, hds d List.mem_cons_self⟩)
  refine hclashes _ _ (fun d hd => ?_) (hequalities literals s (List.Subset.refl _) h)
  obtain ⟨p, hp, hd⟩ := List.mem_flatMap.mp hd
  obtain ⟨n, hn, rfl⟩ := List.mem_map.mp hd
  simp only [List.mem_filter, List.mem_eraseDups, Bool.not_eq_true', beq_iff_eq] at hp hn
  exact hclash p hp.1.1 n hn.1.1.1 hp.2 hn.1.2 hn.2

/-- Literals that hold in a state are satisfiable together. -/
theorem satisfiedBy_requireSatisfiable (ht : t.IsNormal) (hst : t.IsProper st)
    (h : s.SatisfiedBy σ) {literals : List Literal}
    (hl : ∀ l ∈ literals, HoldsUnder t st σ l) :
    (requireSatisfiable s literals).SatisfiedBy σ := by
  refine satisfiedBy_requireSatisfiable_of h
    (fun l hmem s hs => satisfiedBy_requireEquality hst hs (hl l hmem)) ?_
  intro p hp n hn hpos hneg hpred
  have hptrue := (hl p hp).holds
  have hnfalse := (hl n hn).holds
  simp only [Literal.Holds, Literal.eval, hpos, hneg, if_true, Bool.false_eq_true,
    if_false] at hptrue hnfalse
  refine TermPairs.exists_ne_of_map_ne ?_ fun he => hnfalse ?_
  · have hp := (hl p hp).ground.arity
    have hn := (hl n hn).ground.arity
    simp only [Atom.eval, List.length_map] at hp hn
    exact ht.arity_unique hn (hpred ▸ hp)
  · have heq : n.atom.eval σ = p.atom.eval σ := by
      simp only [Atom.eval, hpred, he]
    rwa [heq]

end Literals
end Invariant

namespace Action

/-- The literal that says that two parameters differ. -/
def inequality (a : Action) (p : Nat × Nat) : Literal :=
  Atom.negative ⟨.equal, [(a.parameters.getD p.1 default).name,
    (a.parameters.getD p.2 default).name]⟩

variable {a : Action} {instances : List (List String)}

theorem withInequalities_spec (a : Action) (instances : List (List String)) :
    ∃ ps : List (Nat × Nat),
      (∀ p ∈ ps, p.1 < a.parameters.length ∧ p.2 < a.parameters.length ∧
        ∀ args ∈ instances, args[p.1]? ≠ args[p.2]?) ∧
      (a.withInequalities instances = a ∨
        a.withInequalities instances = { a with
          precondition := .and (a.precondition.conjuncts ++
            ps.map fun p => .literal (a.inequality p)) }) := by
  rw [withInequalities]
  dsimp only
  split
  next => exact ⟨[], nofun, .inl rfl⟩
  next =>
    refine ⟨_, ?_, .inr rfl⟩
    rintro ⟨i, j⟩ hp
    obtain ⟨hp, hall⟩ := List.mem_filter.mp hp
    obtain ⟨i', hi, hj⟩ := List.mem_flatMap.mp hp
    obtain ⟨j', hj, he⟩ := List.mem_map.mp hj
    cases he
    refine ⟨List.mem_range.mp hi, List.mem_range.mp (List.mem_of_mem_drop hj), ?_⟩
    simpa using hall

theorem parameters_withInequalities :
    (a.withInequalities instances).parameters = a.parameters := by
  obtain ⟨ps, -, h | h⟩ := a.withInequalities_spec instances <;> rw [h]

theorem effects_withInequalities (a : Action) (instances : List (List String)) :
    (a.withInequalities instances).effects = a.effects := by
  obtain ⟨ps, -, h | h⟩ := a.withInequalities_spec instances <;> rw [h]

variable {t : Task}

theorem triggers_withInequalities {s : Interpretation} {args : List String} {l : Literal} :
    t.Triggers s (a.withInequalities instances) args l ↔ t.Triggers s a args l := by
  simp only [Task.Triggers, effects_withInequalities, parameters_withInequalities]

theorem inequality_isOver {p : Nat × Nat} (h : AreVariables a.parameters)
    (h₁ : p.1 < a.parameters.length) (h₂ : p.2 < a.parameters.length) :
    (a.inequality p).atom.IsOver t (a.parameters.map (·.name)) where
  arity := rfl
  args := by
    have hmem : ∀ i < a.parameters.length,
        (a.parameters.getD i default).name ∈ a.parameters.map (·.name) := by
      intro i hi
      rw [List.getD_eq_getElem _ _ hi]
      exact List.mem_map_of_mem (List.getElem_mem hi)
    intro x hx
    have hx : x ∈ a.parameters.map (·.name) := by
      rcases List.mem_cons.mp hx with rfl | hx
      · exact hmem _ h₁
      · exact List.mem_singleton.mp hx ▸ hmem _ h₂
    refine ⟨fun _ => hx, fun hv => ?_⟩
    rw [h.isVariable_of_mem hx] at hv
    cases hv

theorem literals_withInequalities (ha : a.IsNormal t) (instances : List (List String)) :
    ∃ ps : List (Nat × Nat),
      (∀ p ∈ ps, p.1 < a.parameters.length ∧ p.2 < a.parameters.length ∧
        ∀ args ∈ instances, args[p.1]? ≠ args[p.2]?) ∧
      (a.withInequalities instances).precondition.conjunction? =
        some (a.precondition.literals ++ ps.map a.inequality) := by
  obtain ⟨ps, hps, h | h⟩ := a.withInequalities_spec instances
  · refine ⟨[], nofun, ?_⟩
    rw [h, ha.precondition.conjunction]
    simp
  · refine ⟨ps, hps, ?_⟩
    rw [h, Condition.conjuncts_of_conjunction ha.precondition.conjunction,
      ← Condition.conjunction?_and (a.precondition.literals ++ ps.map a.inequality)]
    simp [Function.comp_def]

theorem IsNormal.withInequalities (ha : a.IsNormal t) (instances : List (List String)) :
    (a.withInequalities instances).IsNormal t where
  parameters := by
    rw [parameters_withInequalities]
    exact ha.parameters
  precondition := by
    obtain ⟨ps, hps, h⟩ := literals_withInequalities ha instances
    refine ⟨_, h, fun l hl => ?_⟩
    rw [parameters_withInequalities]
    rcases List.mem_append.mp hl with hl | hl
    · exact ha.precondition.literals l hl
    · obtain ⟨p, hp, rfl⟩ := List.mem_map.mp hl
      exact inequality_isOver ha.parameters (hps p hp).1 (hps p hp).2.1
  effects := by
    rw [effects_withInequalities, parameters_withInequalities]
    exact ha.effects

/-- The precondition of an instance that is among those given stays true. -/
theorem holds_withInequalities {s : Interpretation} {args : List String} (ha : a.IsNormal t)
    (hs : t.IsProper s) (hlen : a.parameters.length = args.length)
    (hpre : t.Holds s (Grounding.valuesOf a.parameters args) a.precondition)
    (hargs : args ∈ instances) :
    t.Holds s (Grounding.valuesOf a.parameters args)
      (a.withInequalities instances).precondition := by
  obtain ⟨ps, hps, h⟩ := literals_withInequalities ha instances
  have hvalue : ∀ i < a.parameters.length,
      args[i]? = some ((Grounding.valuesOf a.parameters args).apply
        (a.parameters.getD i default).name) := by
    intro i hi
    have hia : i < args.length := hlen ▸ hi
    rw [List.getD_eq_getElem _ _ hi, List.getElem?_eq_getElem hia,
      Grounding.apply_valuesOf ha.parameters.nodup hlen
        (List.getElem?_eq_getElem hi) (List.getElem?_eq_getElem hia)]
  rw [Task.Holds, Condition.holds_iff_of_conjunction h,
    List.map_append, allHold_append]
  refine ⟨ha.precondition.holds_iff.mp hpre, ?_⟩
  intro l hl
  obtain ⟨m, hm, rfl⟩ := List.mem_map.mp hl
  obtain ⟨p, hp, rfl⟩ := List.mem_map.mp hm
  obtain ⟨h₁, h₂, hne⟩ := hps p hp
  refine (Literal.holds_negative s _).mpr fun hmem => hne args hargs ?_
  obtain ⟨o, -, he⟩ := (hs _).mp hmem
  obtain ⟨he₁, he⟩ := List.cons.inj he
  obtain ⟨he₂, -⟩ := List.cons.inj he
  rw [hvalue _ h₁, hvalue _ h₂, he₁, he₂]

/-- An instance that is among those given stays applicable. -/
theorem applicable_withInequalities {s : Interpretation} {args : List String}
    (ha : a.IsNormal t) (hs : t.IsProper s) (happ : t.Applicable s a args)
    (hargs : args ∈ instances) : t.Applicable s (a.withInequalities instances) args := by
  rw [Task.Applicable, parameters_withInequalities]
  exact ⟨happ.1, holds_withInequalities ha hs happ.1.length_eq happ.2 hargs⟩

end Action
end FinitePlanning
