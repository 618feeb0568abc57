import FinitePlanning.Proofs.Elaboration.Formula
import FinitePlanning.Proofs.Semantics.Effect

/-!
Elaborated effects. Flattening makes single effects of a nested one, whose variables are those that
enclose them, and whose conditions are within the scope of these. Of the effects that are added one
by one, each that adds an atom stays, and one that deletes an atom stays if no other adds it under
the same parameters and condition. So the effects that stay do not depend on the order, and together
they add and delete the same atoms as all of them.
-/

namespace FinitePlanning

open Elaboration

variable {d : Declarations} {t : Task} {outer ps qs : List Parameter} {within : Enclosure}
  {s s' s'' : ElaborationState} {o o' : Outcome}

/-- The effect that adds what this one deletes, or the other way round. -/
def Effect.opposite (e : Effect) : Effect :=
  { e with literal := e.literal.negate }

namespace Elaboration

/-- All variables that enclose an effect or are quantified in a condition that does. -/
def Enclosure.declared (within : Enclosure) : List Parameter :=
  within.parameters ++ within.conditions.flatMap (·.quantifiedParameters)

theorem Enclosure.declared_quantified (within : Enclosure) (ps : List Parameter) (inner : Scope) :
    (Enclosure.declared { within with
      parameters := within.parameters ++ ps, scope := inner }).Subperm (within.declared ++ ps) := by
  rw [declared, declared, List.append_assoc, List.append_assoc]
  exact (List.perm_append_comm.append_left _).subperm

theorem Enclosure.declared_when (within : Enclosure) (c : Condition) :
    (Enclosure.declared { within with conditions := within.conditions ++ [c] }).Subperm
      (within.declared ++ c.quantifiedParameters) := by
  rw [declared, declared, List.flatMap_append, List.flatMap_singleton, List.append_assoc]

/-- The conditions and the names that enclose an effect of an action with parameters `outer`. -/
structure Enclosure.IsOver (within : Enclosure) (t : Task) (outer : List Parameter) : Prop where
  conditions : ∀ c ∈ within.conditions,
    c.IsScoped t .full ((outer ++ within.parameters).map (·.name))
  scope : within.scope.IsOver ((outer ++ within.parameters).map (·.name))

theorem Enclosure.IsOver.quantified (h : within.IsOver t outer) {inner : Scope}
    {symbols : List Pddl.TypedSymbol}
    (hbinds : Binds true [] s within.scope symbols ps inner s') :
    Enclosure.IsOver { within with parameters := within.parameters ++ ps, scope := inner } t
      outer where
  conditions c hc := (h.conditions c hc).mono <| by
    rw [← List.append_assoc]
    exact List.map_subset _ (List.subset_append_left _ _)
  scope := by
    rw [← List.append_assoc, List.map_append]
    exact hbinds.isOver h.scope

theorem Enclosure.IsOver.when (h : within.IsOver t outer) {c : Condition}
    (hc : c.IsScoped t .full ((outer ++ within.parameters).map (·.name))) :
    Enclosure.IsOver { within with conditions := within.conditions ++ [c] } t outer :=
  ⟨List.forall_mem_append.mpr ⟨h.conditions, List.forall_mem_singleton.mpr hc⟩, h.scope⟩

/-- A single effect, all of whose variables belong to some declared ones. -/
structure IsSingle (t : Task) (outer declared : List Parameter) (e : Effect) : Prop where
  declared : (e.parameters ++ e.condition.quantifiedParameters).Subperm declared
  condition : e.condition.IsWellScoped t .full ((outer ++ e.parameters).map (·.name))
  literal : e.literal.atom.IsOver t ((outer ++ e.parameters).map (·.name))
  named : ∃ name, e.literal.atom.predicate = .named name

theorem IsSingle.mono {e : Effect} (h : IsSingle t outer ps e) (hsub : ps.Subperm qs) :
    IsSingle t outer qs e :=
  { h with declared := h.declared.trans hsub }

/-- Flattening declares some variables and makes effects over them and those that enclose them. -/
def Flattens (t : Task) (outer : List Parameter) (within : Enclosure) (s : ElaborationState)
    (fs : List Effect) (s' : ElaborationState) : Prop :=
  ∃ ps, Declares s ps s' ∧ ∀ f ∈ fs, IsSingle t outer (within.declared ++ ps) f

theorem Flattens.nil (h : s.reserved ⊆ s'.reserved) : Flattens t outer within s [] s' :=
  ⟨[], .of_subset h, List.forall_mem_nil _⟩

theorem Flattens.append {fs fs' : List Effect} (h : Flattens t outer within s fs s')
    (h' : Flattens t outer within s' fs' s'') : Flattens t outer within s (fs ++ fs') s'' := by
  obtain ⟨ps, hps, hsingle⟩ := h
  obtain ⟨qs, hqs, hsingle'⟩ := h'
  refine ⟨ps ++ qs, hps.append hqs, List.forall_mem_append.mpr ⟨fun f hf => ?_, fun f hf => ?_⟩⟩
  · refine (hsingle f hf).mono ?_
    rw [← List.append_assoc]
    exact (List.sublist_append_left _ _).subperm
  · refine (hsingle' f hf).mono ?_
    exact (List.Subperm.refl _).append (List.sublist_append_right _ _).subperm

/-- What is declared around an effect counts as declared with it. -/
theorem Flattens.enclose {within' : Enclosure} {fs : List Effect} (hps : Declares s ps s')
    (hdeclared : within'.declared.Subperm (within.declared ++ ps))
    (h : Flattens t outer within' s' fs s'') : Flattens t outer within s fs s'' := by
  obtain ⟨qs, hqs, hsingle⟩ := h
  refine ⟨ps ++ qs, hps.append hqs, fun f hf => (hsingle f hf).mono ?_⟩
  rw [← List.append_assoc]
  exact hdeclared.append (.refl qs)

/-- The single effect of a literal. -/
def Enclosure.single (within : Enclosure) (l : Literal) : Effect :=
  ⟨within.parameters, (Condition.and within.conditions).simplified, l⟩

theorem flattens_single (hw : within.IsOver t outer) {l : Literal}
    (hl : l.atom.IsOver t ((outer ++ within.parameters).map (·.name)))
    (hnamed : ∃ name, l.atom.predicate = .named name) (hgrows : s.reserved ⊆ s'.reserved) :
    Flattens t outer within s [within.single l] s' := by
  refine ⟨[], .of_subset hgrows, List.forall_mem_singleton.mpr ?_⟩
  refine ⟨?_, ⟨(Condition.IsScoped.and hw.conditions).simplified,
    Condition.isSimplified_simplified _⟩, hl, hnamed⟩
  rw [List.append_nil, Enclosure.declared, ← Condition.quantifiedParameters_and]
  exact (List.Subperm.refl _).append (Condition.Shrinks.simplified _).quantified

theorem reads_effectAtom {scope : Scope} {e : Sexpr} {a : Atom}
    (h : Reads (effectAtom d scope e) s a s') :
    Reads (atom d scope e) s a s' ∧ ∃ name, a.predicate = .named name := by
  rw [effectAtom] at h
  obtain ⟨b, q, hb, h⟩ := reads_bind h
  split at h
  next name hname =>
    obtain ⟨rfl, rfl⟩ := reads_pure h
    exact ⟨hb, name, hname⟩
  next => exact absurd h not_reads_throw
  next => exact absurd h not_reads_throw

theorem flattens_of_effectAtom (hd : d.Describes t) (hw : within.IsOver t outer) {e : Sexpr}
    {a : Atom} (negated : Bool) (h : Reads (effectAtom d within.scope e) s a s') :
    Flattens t outer within s [within.single ⟨a, negated⟩] s' := by
  obtain ⟨ha, hnamed⟩ := reads_effectAtom h
  obtain ⟨hover, hgrows⟩ := isOver_of_atom hd hw.scope ha
  exact flattens_single hw hover hnamed hgrows

/-! ### Induction over runs -/

theorem mem_addEffect {effects : List Effect} {e f : Effect} (h : f ∈ addEffect effects e) :
    f ∈ effects ∨ f = e := by
  rw [addEffect] at h
  split at h
  next =>
    split at h
    next => exact .inl h
    next =>
      rcases List.mem_append.mp h with h | h
      · exact .inl (List.mem_of_mem_erase h)
      · exact .inr (List.mem_singleton.mp h)
  next =>
    split at h
    next => exact .inl h
    next => exact (List.mem_append.mp h).imp_right List.mem_singleton.mp

theorem mem_foldl_addEffect {effects fs : List Effect} {f : Effect}
    (h : f ∈ fs.foldl addEffect effects) : f ∈ effects ∨ f ∈ fs := by
  induction fs generalizing effects with
  | nil => exact .inl h
  | cons e fs ih =>
      rcases ih h with hf | hf
      · exact (mem_addEffect hf).imp_right fun h => List.mem_cons.mpr (.inl h)
      · exact .inr (List.mem_cons_of_mem e hf)

/-- The outcome after some effects and costs were added. At most one cost can be. -/
structure Outcome.Collects (o : Outcome) (fs : List Effect) (ks : List Cost) (o' : Outcome) :
    Prop where
  effects : o'.effects = fs.foldl addEffect o.effects
  cost : o'.cost.toList = o.cost.toList ++ ks

theorem Outcome.Collects.refl (o : Outcome) : o.Collects [] [] o :=
  ⟨rfl, (List.append_nil _).symm⟩

theorem Outcome.Collects.trans {o'' : Outcome} {fs fs' : List Effect} {ks ks' : List Cost}
    (h : o.Collects fs ks o') (h' : o'.Collects fs' ks' o'') :
    o.Collects (fs ++ fs') (ks ++ ks') o'' where
  effects := by rw [h'.effects, h.effects, List.foldl_append]
  cost := by rw [h'.cost, h.cost, List.append_assoc]

theorem Outcome.collects_add (o : Outcome) (within : Enclosure) (l : Literal) :
    o.Collects [within.single l] [] (o.add within l) :=
  ⟨rfl, (List.append_nil _).symm⟩

/-- What the elements of a list were flattened into, one after the other. -/
inductive FlattensEach
    (Q : Sexpr → ElaborationState → List Effect → List Cost → ElaborationState → Prop) :
    List Sexpr → ElaborationState → List Effect → List Cost → ElaborationState → Prop
  | nil (s : ElaborationState) : FlattensEach Q [] s [] [] s
  | cons {e : Sexpr} {es : List Sexpr} {fs fs' : List Effect} {ks ks' : List Cost}
      {s s' s'' : ElaborationState} :
      Q e s fs ks s' → FlattensEach Q es s' fs' ks' s'' →
        FlattensEach Q (e :: es) s (fs ++ fs') (ks ++ ks') s''

/-- A property of the effects and costs that a nested effect is flattened into holds of a run if it
holds of the runs on the parts. -/
structure FlattensFromParts (d : Declarations) (Q : Enclosure → Sexpr → ElaborationState →
    List Effect → List Cost → ElaborationState → Prop) : Prop where
  nothing (within : Enclosure) (span : Span) (s : ElaborationState) :
    Q within (.list [] span) s [] [] s
  and {within : Enclosure} {head : Symbol} {args : List Sexpr} {span : Span}
    {s s' : ElaborationState} {fs : List Effect} {ks : List Cost}
    (hhead : EffectKeyword.ofKeyword? head.name = some .and)
    (h : FlattensEach (Q within) args s fs ks s') :
    Q within (.list (.atom head :: args) span) s fs ks s'
  «forall» {within : Enclosure} {inner : Scope} {head : Symbol} {bound body : Sexpr} {span : Span}
    {s s' s'' : ElaborationState} {ps : List Parameter} {fs : List Effect} {ks : List Cost}
    (hhead : EffectKeyword.ofKeyword? head.name = some .forall)
    (hbound : Reads (quantified d within.scope bound) s (ps, inner) s')
    (h : Q { within with parameters := within.parameters ++ ps, scope := inner } body s' fs ks s'') :
    Q within (.list [.atom head, bound, body] span) s fs ks s''
  when {within : Enclosure} {head : Symbol} {premise body : Sexpr} {span : Span}
    {s s' s'' : ElaborationState} {c : Condition} {fs : List Effect} {ks : List Cost}
    (hhead : EffectKeyword.ofKeyword? head.name = some .when)
    (hpremise : Reads (condition d within.scope premise) s c s')
    (h : Q { within with conditions := within.conditions ++ [c] } body s' fs ks s'') :
    Q within (.list [.atom head, premise, body] span) s fs ks s''
  increase {within : Enclosure} {head : Symbol} {args : List Sexpr} {span : Span}
    {s : ElaborationState} {k : Cost}
    (hhead : EffectKeyword.ofKeyword? head.name = some .increase)
    (hparameters : within.parameters = []) (hconditions : within.conditions = [])
    (h : cost d within.scope (.list (.atom head :: args) span) args = .ok k) :
    Q within (.list (.atom head :: args) span) s [] [k] s
  not {within : Enclosure} {head : Symbol} {arg : Sexpr} {span : Span}
    {s s' : ElaborationState} {a : Atom} (hhead : EffectKeyword.ofKeyword? head.name = some .not)
    (h : Reads (effectAtom d within.scope arg) s a s') :
    Q within (.list [.atom head, arg] span) s [within.single a.negative] [] s'
  atom {within : Enclosure} {head : Symbol} {args : List Sexpr} {span : Span}
    {s s' : ElaborationState} {a : Atom} (hhead : EffectKeyword.ofKeyword? head.name = none)
    (h : Reads (effectAtom d within.scope (.list (.atom head :: args) span)) s a s') :
    Q within (.list (.atom head :: args) span) s [within.single a.positive] [] s'

theorem flattensEach_of_flattenList
    {Q : Sexpr → ElaborationState → List Effect → List Cost → ElaborationState → Prop}
    {es : List Sexpr}
    (h : ∀ e ∈ es, ∀ s o o' s', Reads (flatten d within o e) s o' s' →
      ∃ fs ks, o.Collects fs ks o' ∧ Q e s fs ks s')
    (hread : Reads (flattenList d within o es) s o' s') :
    ∃ fs ks, o.Collects fs ks o' ∧ FlattensEach Q es s fs ks s' := by
  induction es generalizing s o with
  | nil =>
      rw [flattenList] at hread
      obtain ⟨rfl, rfl⟩ := reads_pure hread
      exact ⟨[], [], .refl _, .nil s⟩
  | cons e es ih =>
      rw [List.forall_mem_cons] at h
      rw [flattenList] at hread
      obtain ⟨o₁, q, he, hread⟩ := reads_bind hread
      obtain ⟨fs, ks, ho, hfirst⟩ := h.1 s o o₁ q he
      obtain ⟨fs', ks', ho', hrest⟩ := ih h.2 hread
      exact ⟨fs ++ fs', ks ++ ks', ho.trans ho', .cons hfirst hrest⟩

theorem FlattensFromParts.of_reads {Q : Enclosure → Sexpr → ElaborationState → List Effect →
    List Cost → ElaborationState → Prop} (hQ : FlattensFromParts d Q) {e : Sexpr}
    (h : Reads (effect d within o e) s o' s') :
    ∃ fs ks, o.Collects fs ks o' ∧ Q within e s fs ks s' := by
  rw [effect_eq] at h
  induction e using Sexpr.induction generalizing within s o o' s' with
  | atom symbol =>
      rw [flatten] at h
      exact absurd h not_reads_throw
  | list es span ih =>
      cases es with
      | nil =>
          rw [flatten] at h
          obtain ⟨rfl, rfl⟩ := reads_pure h
          exact ⟨[], [], .refl _, hQ.nothing within span s⟩
      | cons head args =>
          cases head with
          | list es place =>
              rw [flatten] at h
              exact absurd h not_reads_throw
          | atom head =>
              rw [flatten.eq_def] at h
              dsimp only at h
              split at h
              next hhead =>
                obtain ⟨fs, ks, ho, hargs⟩ := flattensEach_of_flattenList
                  (fun e he s o o' s' => ih e (List.mem_cons_of_mem _ he)) h
                exact ⟨fs, ks, ho, hQ.and hhead hargs⟩
              next hhead =>
                split at h
                next bound body =>
                  obtain ⟨⟨ps, inner⟩, q, hps, h⟩ := reads_bind h
                  obtain ⟨fs, ks, ho, hbody⟩ := ih body (by simp) h
                  exact ⟨fs, ks, ho, hQ.forall hhead hps hbody⟩
                next => exact absurd h not_reads_throw
              next hhead =>
                split at h
                next premise body =>
                  obtain ⟨c, q, hc, h⟩ := reads_bind h
                  obtain ⟨fs, ks, ho, hbody⟩ := ih body (by simp) h
                  exact ⟨fs, ks, ho, hQ.when hhead hc hbody⟩
                next => exact absurd h not_reads_throw
              next hhead =>
                split at h
                next hopen =>
                  split at h
                  next => exact absurd h not_reads_throw_bind
                  next hnone =>
                    obtain ⟨k, q, hk, h⟩ := reads_bind h
                    obtain ⟨hcost, rfl⟩ := reads_result hk
                    obtain ⟨rfl, rfl⟩ := reads_pure h
                    rw [Bool.not_eq_true, Option.isSome_eq_false_iff, Option.isNone_iff_eq_none]
                      at hnone
                    rw [Bool.and_eq_true, List.isEmpty_iff, List.isEmpty_iff] at hopen
                    refine ⟨[], [k], ⟨rfl, ?_⟩, hQ.increase hhead hopen.1 hopen.2 hcost⟩
                    rw [hnone]
                    rfl
                next => exact absurd h not_reads_throw_bind
              next hhead =>
                split at h
                next arg =>
                  obtain ⟨a, q, ha, h⟩ := reads_bind h
                  obtain ⟨rfl, rfl⟩ := reads_pure h
                  exact ⟨_, _, o.collects_add within a.negative, hQ.not hhead ha⟩
                next => exact absurd h not_reads_throw
              next hhead =>
                obtain ⟨a, q, ha, h⟩ := reads_bind h
                obtain ⟨rfl, rfl⟩ := reads_pure h
                exact ⟨_, _, o.collects_add within a.positive, hQ.atom hhead ha⟩

/-! ### Contradictory and duplicate effects -/

section Conflicts

variable {es fs rs rs' : List Effect} {e f : Effect} {objects : String → List String}
  {I : Interpretation} {values : Renaming} {a : Atom} {l : Literal}

@[simp] theorem opposite_opposite (e : Effect) : e.opposite.opposite = e := by
  simp [Effect.opposite, Literal.negate]

theorem negated_opposite (e : Effect) : e.opposite.literal.negated = !e.literal.negated :=
  rfl

theorem opposite_eq_iff : f.opposite = e ↔ f = e.opposite :=
  ⟨fun h => by rw [← h, opposite_opposite], fun h => by rw [h, opposite_opposite]⟩

/-- An effect stays among others if it adds its atom, or if none of them adds the atom that it
deletes under the same parameters and condition. -/
def Stays (es : List Effect) (f : Effect) : Prop :=
  f ∈ es ∧ (f.literal.negated → f.opposite ∉ es)

theorem stays_append : Stays (es ++ [e]) f ↔
    (f ∈ es ∨ f = e) ∧ (f.literal.negated → f.opposite ∉ es ∧ f ≠ e.opposite) := by
  rw [Stays, List.mem_append, List.mem_append, List.mem_singleton, List.mem_singleton, not_or,
    opposite_eq_iff]

theorem addEffect_eq (rs : List Effect) (e : Effect) :
    addEffect rs e = if e.opposite ∈ rs then
      if e.literal.negated then rs else rs.erase e.opposite ++ [e]
    else if e ∈ rs then rs
    else rs ++ [e] :=
  rfl

/-- The effects that stay among some others, each of them once. -/
structure IsReduced (rs es : List Effect) : Prop where
  nodup : rs.Nodup
  mem_iff (f : Effect) : f ∈ rs ↔ Stays es f

theorem IsReduced.addEffect (h : IsReduced rs es) (e : Effect) :
    IsReduced (addEffect rs e) (es ++ [e]) := by
  have hsign := negated_opposite e
  have hback := opposite_opposite e
  rw [addEffect_eq]
  split
  next hopposite =>
    obtain ⟨hearlier, hadds⟩ := (h.mem_iff _).mp hopposite
    rw [opposite_opposite] at hadds
    split
    next hnegated =>
      -- what deletes the atom is left out
      refine ⟨h.nodup, fun f => ?_⟩
      rw [h.mem_iff, stays_append, Stays]
      grind
    next hpositive =>
      -- what adds the atom takes the place of what deletes it
      have hnew : e ∉ rs := fun he => hadds (by simp [hsign, hpositive]) ((h.mem_iff e).mp he).1
      refine ⟨(h.nodup.erase _).append (List.nodup_singleton e) ?_, fun f => ?_⟩
      · rw [List.disjoint_singleton]
        exact fun he => hnew (List.mem_of_mem_erase he)
      · rw [List.mem_append, h.nodup.mem_erase_iff, List.mem_singleton, h.mem_iff, stays_append,
          Stays]
        grind
  next hopposite =>
    rw [h.mem_iff, Stays, opposite_opposite] at hopposite
    split
    next he =>
      obtain ⟨he, hadded⟩ := (h.mem_iff _).mp he
      refine ⟨h.nodup, fun f => ?_⟩
      rw [h.mem_iff, stays_append, Stays]
      grind
    next he =>
      refine ⟨h.nodup.append (List.nodup_singleton e) (List.disjoint_singleton.mpr he), fun f => ?_⟩
      rw [List.mem_append, List.mem_singleton, h.mem_iff, stays_append, Stays]
      grind

theorem isReduced_foldl (h : IsReduced rs es) (fs : List Effect) :
    IsReduced (fs.foldl addEffect rs) (es ++ fs) := by
  induction fs generalizing rs es with
  | nil => rwa [List.append_nil]
  | cons e fs ih =>
      rw [List.append_cons]
      exact ih (h.addEffect e)

theorem isReduced (es : List Effect) : IsReduced (es.foldl addEffect []) es := by
  have hnil : IsReduced [] [] := ⟨List.nodup_nil, fun f => by simp [Stays]⟩
  exact isReduced_foldl hnil es

/-- The effects that stay do not depend on the order in which they are added. -/
theorem IsReduced.perm (h : IsReduced rs es) (h' : IsReduced rs' fs)
    (hperm : es.Perm fs) : rs.Perm rs' := by
  refine (List.perm_ext_iff_of_nodup h.nodup h'.nodup).mpr fun f => ?_
  rw [h.mem_iff, h'.mem_iff, Stays, Stays, hperm.mem_iff, hperm.mem_iff]

theorem negated_of_bringsAbout (h : e.BringsAbout objects I values l) :
    e.literal.negated = l.negated := by
  obtain ⟨os, -, -, rfl⟩ := h
  rfl

/-- Under the same parameters and condition both literals are brought about. -/
theorem bringsAbout_opposite (h : e.BringsAbout objects I values a.negative) :
    e.opposite.BringsAbout objects I values a.positive := by
  obtain ⟨os, hos, hholds, hl⟩ := h
  exact ⟨os, hos, hholds, congrArg Literal.negate hl⟩

theorem IsReduced.added (h : IsReduced rs es) :
    added (SomeBringsAbout objects I values rs) = added (SomeBringsAbout objects I values es) := by
  ext a
  refine exists_congr fun e => and_congr_left fun he => ?_
  rw [h.mem_iff, Stays, negated_of_bringsAbout he]
  exact and_iff_left nofun

theorem IsReduced.deleted (h : IsReduced rs es) :
    deleted (SomeBringsAbout objects I values rs) =
      deleted (SomeBringsAbout objects I values es) := by
  ext a
  have hadded : SomeBringsAbout objects I values rs a.positive ↔
      SomeBringsAbout objects I values es a.positive := Set.ext_iff.mp h.added a
  refine (and_congr_right' (not_congr hadded)).trans (and_congr_left fun hnone => ?_)
  refine exists_congr fun e => and_congr_left fun he => ?_
  rw [h.mem_iff, Stays]
  exact and_iff_left fun _ hopposite => hnone ⟨_, hopposite, bringsAbout_opposite he⟩

end Conflicts

/-! ### Scopes of effects -/

theorem FlattensEach.flattens {es : List Sexpr} {fs : List Effect} {ks : List Cost}
    (h : FlattensEach (fun _ s fs _ s' => Flattens t outer within s fs s') es s fs ks s') :
    Flattens t outer within s fs s' := by
  induction h with
  | nil s => exact .nil (List.Subset.refl _)
  | cons hfirst _ ih => exact hfirst.append ih

theorem FlattensEach.imp
    {R Q : Sexpr → ElaborationState → List Effect → List Cost → ElaborationState → Prop}
    (himp : ∀ {e s fs ks s'}, R e s fs ks s' → Q e s fs ks s') {es : List Sexpr}
    {fs : List Effect} {ks : List Cost} (h : FlattensEach R es s fs ks s') :
    FlattensEach Q es s fs ks s' := by
  induction h with
  | nil s => exact .nil s
  | cons hfirst _ ih => exact .cons (himp hfirst) ih

theorem flattensFromParts_isOver (hd : d.Describes t) (outer : List Parameter) :
    FlattensFromParts d
      fun within _ s fs _ s' => within.IsOver t outer → Flattens t outer within s fs s' where
  nothing within span s hw := .nil (List.Subset.refl _)
  and hhead h hw := (h.imp fun h => h hw).flattens
  «forall» {within} _ _ _ _ _ _ _ _ ps _ _ hhead hbound h hw := by
    obtain ⟨symbols, hbinds⟩ := binds_of_quantified hbound
    exact (h (hw.quantified hbinds)).enclose hbinds.declares
      (within.declared_quantified ps _)
  when {within} _ _ _ _ _ _ _ c _ _ hhead hpremise h hw := by
    obtain ⟨hc, -⟩ := isRead_of_condition hd hw.scope hpremise
    exact (h (hw.when hc.inScope)).enclose hc.declares (within.declared_when c)
  increase hhead hparameters hconditions h hw := .nil (List.Subset.refl _)
  not hhead h hw := flattens_of_effectAtom hd hw .true h
  atom hhead h hw := flattens_of_effectAtom hd hw .false h

theorem flattens_of_effect (hd : d.Describes t) {e : Sexpr} (hw : within.IsOver t outer)
    (h : Reads (effect d within o e) s o' s') :
    ∃ fs, Flattens t outer within s fs s' ∧ ∀ f ∈ o'.effects, f ∈ o.effects ∨ f ∈ fs := by
  obtain ⟨fs, ks, ho, hflattens⟩ := (flattensFromParts_isOver hd outer).of_reads h
  exact ⟨fs, hflattens hw, fun f hf => mem_foldl_addEffect (ho.effects ▸ hf)⟩

end Elaboration
end FinitePlanning
