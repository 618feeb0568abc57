import FinitePlanning.Proofs.Elaboration.Task
import FinitePlanning.Proofs.NormalForm.Extension

/-!
Tasks without universal quantifiers. All rewritten conditions keep their truth values where the new
predicates are interpreted by their axioms, and the new predicates are used with as many arguments
as their axioms have, of the same types.
-/

namespace FinitePlanning
namespace Universal

open Condition Grounding

variable {objects : String → List String} {t t' : Task} {types ctx : List Parameter} {known : Known}
  {c d : Condition} {vars : List String} {new : List Axiom} {a : Action} {x : Axiom}

theorem type_eq_of_areConsistent {ps : List Parameter} (h : AreConsistent ps) {p : Parameter}
    (hp : p ∈ ps) : p.type = typeIn ps.reverse p.name := by
  have hsome : (ps.reverse.find? (·.name == p.name)).isSome :=
    List.find?_isSome.mpr ⟨p, List.mem_reverse.mpr hp, beq_self_eq_true p.name⟩
  obtain ⟨q, hq⟩ := Option.isSome_iff_exists.mp hsome
  have hname : q.name = p.name := by simpa using List.find?_some hq
  rw [typeIn, hq, h p hp q (List.mem_reverse.mp (List.mem_of_find?_eq_some hq)) hname.symm]
  rfl

/-! ### Uses of the new predicates -/

/-- The arguments of an atom are variables of the types that the parameters have. -/
def Fits (ctx ps : List Parameter) (a : Atom) : Prop :=
  List.Forall₂ (fun p y => ⟨y, p.type⟩ ∈ ctx) ps a.args

theorem Rewrites.quantifiedParameters_subset {negated : Bool}
    (h : Rewrites types known negated c d) : d.quantifiedParameters ⊆ c.quantifiedParameters := by
  induction h with
  | @truth negated | @falsity negated | @literal negated =>
      cases negated <;> simp
  | @and negated cs ds length _ ih | @or negated cs ds length _ ih =>
      have hds : ds.flatMap quantifiedParameters ⊆ cs.flatMap quantifiedParameters := by
        intro p hp
        obtain ⟨d, hd, hp⟩ := List.mem_flatMap.mp hp
        obtain ⟨c, hcd⟩ := exists_mem_zip_of_mem_right length hd
        exact List.mem_flatMap.mpr ⟨c, (List.of_mem_zip hcd).1, ih (c, d) hcd hp⟩
      cases negated <;> simpa using hds
  | @notForall ps body d _ ih | @«exists» ps body d _ ih =>
      simp only [quantifiedParameters_exists, quantifiedParameters_forall]
      exact List.append_subset.mpr ⟨List.subset_append_left _ _, fun p hp =>
        List.mem_append_right _ (ih hp)⟩
  | «forall» | notExists => exact quantifiedParameters_literal _ ▸ List.nil_subset _

/-- A literal for a condition has arguments of the right types, wherever its variables are bound. -/
theorem fits_standIn {k : Fragment} (hd : d.IsScoped t' k (ctx.map (·.name)))
    (htypes : ∀ p ∈ ctx ++ d.quantifiedParameters, p.type = typeIn types p.name) {l : Literal}
    (hl : l ∈ d.literals) {name : String}
    (hatom : l.atom = Atom.named name ((parametersOf types c).map (·.name))) :
    Fits (ctx ++ d.quantifiedParameters) (parametersOf types c) l.atom := by
  rw [Fits, hatom, Atom.named, List.forall₂_map_right_iff, List.forall₂_same]
  intro p hp
  obtain ⟨htype, hvariable⟩ := of_mem_parametersOf hp
  have hoccurs : p.name ∈ d.literals.flatMap (·.atom.vars) := by
    refine List.mem_flatMap.mpr ⟨l, hl, List.mem_filter.mpr ⟨?_, ?_⟩⟩
    · rw [hatom]
      exact List.mem_map_of_mem hp
    · exact isVariable_of_mem_freeVariables hvariable
  have hbound : p.name ∈ (ctx ++ d.quantifiedParameters).map (·.name) := by
    rw [List.map_append, List.mem_append]
    exact hd.mem_of_occurring hoccurs
  obtain ⟨q, hq, hname⟩ := List.mem_map.mp hbound
  have hqtype : q.type = p.type := (htypes q hq).trans (hname ▸ htype.symm)
  rw [← hname, ← hqtype]
  exact hq

theorem AreDefinitions.parameters_eq (h : AreDefinitions t known new) (hx : x ∈ new)
    {ps : List Parameter} {name : String} (hmem : ((c, ps), name) ∈ known) (hname : name = x.name) :
    x.parameters = ps := by
  obtain ⟨e, he, hename, hparameters⟩ := h.exists_known hx
  rw [hparameters, h.eq_of_name he hmem (hename.symm.trans hname.symm)]

/-- A condition in which universal quantifiers were replaced, within the scope of some variables. -/
structure KeepsMeaning (objects : String → List String) (new : List Axiom) (ctx : List Parameter)
    (c d : Condition) : Prop where
  withoutUniversals : d.hasUniversalPart = Bool.false
  holds_iff : ∀ s s', IsExtension objects new s s' → ∀ values : Renaming,
    FixesObjects values.apply →
    (∀ p ∈ ctx, p.name ∈ c.freeVariables → values.apply p.name ∈ objects p.type) →
    (d.Holds objects s' values ↔ c.Holds objects s values)
  fits : ∀ l ∈ d.literals, ∀ x ∈ new, l.atom.predicate = .named x.name →
    Fits (ctx ++ d.quantifiedParameters) x.parameters l.atom

theorem Replaces.isTyped (h : Replaces t types known vars c d) : IsTyped t types vars c := by
  cases h with
  | same hc => exact hc
  | rewritten hc => exact hc

theorem Replaces.quantifiedParameters_subset (h : Replaces t types known vars c d) :
    d.quantifiedParameters ⊆ c.quantifiedParameters := by
  cases h with
  | same => exact List.Subset.refl _
  | rewritten _ h =>
      exact List.Subset.trans (Shrinks.simplified _).quantified.subset
        h.quantifiedParameters_subset

theorem Replaces.keepsMeaning (h : Replaces t types known (ctx.map (·.name)) c d)
    (hctx : ∀ p ∈ ctx, p.type = typeIn types p.name) (hnew : AreDefinitions t known new)
    (hd : d.IsScoped t' .withoutUniversals (ctx.map (·.name))) :
    KeepsMeaning objects new ctx c d where
  withoutUniversals := hd.hasUniversalPart
  holds_iff s s' hs values hfix hvalues := by
    have hc : c.Holds objects s' values ↔ c.Holds objects s values :=
      holds_congr_interpretation fun l hl a ha => hs.other a fun x hx =>
        ha ▸ hnew.predicate_ne h.isTyped.inScope hl hx
    rw [← hc]
    refine h.holds_iff hfix (fun y hy => ?_) (hnew.standsFor hs)
    obtain ⟨p, hp, rfl⟩ := List.mem_map.mp (h.isTyped.inScope.freeVariables_subset hy)
    exact hctx p hp ▸ hvalues p hp hy
  fits l hl x hx hpredicate := by
    have hscoped := h.isTyped.inScope
    have htypes : ∀ p ∈ ctx ++ d.quantifiedParameters, p.type = typeIn types p.name := by
      rw [List.forall_mem_append]
      exact ⟨hctx, fun p hp => h.isTyped.types p (h.quantifiedParameters_subset hp)⟩
    cases h with
    | same => exact absurd hpredicate (hnew.predicate_ne hscoped hl hx)
    | @rewritten d' _ h =>
        rcases h.mem_literals ((Condition.Shrinks.simplified _).literals hl) with
          ⟨l', hl', heq⟩ | ⟨c', name, hname, -, hatom⟩
        · exact absurd (heq ▸ hpredicate) (hnew.predicate_ne hscoped hl' hx)
        · have hsame := hpredicate
          rw [hatom] at hsame
          rw [hnew.parameters_eq hx hname (Predicate.named.inj hsame)]
          exact fits_standIn hd htypes hl hatom

theorem Defines.quantifiedParameters_subset (h : Defines t types known c d) :
    d.quantifiedParameters ⊆ c.quantifiedParameters := by
  cases h with
  | same => exact List.Subset.refl _
  | @notForall ps body d hc h =>
      refine List.Subset.trans (Shrinks.simplified _).quantified.subset ?_
      simpa using (Rewrites.notForall h).quantifiedParameters_subset
  | @«exists» ps body d hc h =>
      refine List.Subset.trans (Shrinks.simplified _).quantified.subset ?_
      exact (Rewrites.exists h).quantifiedParameters_subset

/-- The condition of a new axiom has no universal quantifiers either, and uses the new predicates as
it should. -/
theorem AreDefinitions.fits (hnew : AreDefinitions t known new) (hx : x ∈ new)
    (hscoped : x.condition.IsScoped t' .withoutUniversals (x.parameters.map (·.name))) :
    ∀ l ∈ x.condition.literals, ∀ y ∈ new, l.atom.predicate = .named y.name →
      Fits (x.parameters ++ x.condition.quantifiedParameters) y.parameters l.atom := by
  intro l hl y hy hpredicate
  obtain ⟨types, c, -, hparameters, hdefines⟩ := (hnew.defined x hx).source
  have htypes : ∀ p ∈ x.parameters ++ x.condition.quantifiedParameters,
      p.type = typeIn types p.name := by
    rw [List.forall_mem_append]
    exact ⟨fun p hp => (of_mem_parametersOf (hparameters ▸ hp)).1, fun p hp =>
      hdefines.isTyped.types p (hdefines.quantifiedParameters_subset hp)⟩
  rcases hdefines.mem_literals hl with ⟨l', hl', heq⟩ | ⟨c', name, hname, -, hatom⟩
  · exact absurd (heq ▸ hpredicate) (hnew.predicate_ne hdefines.isTyped.inScope hl' hy)
  · have hsame := hpredicate
    rw [hatom] at hsame
    rw [hnew.parameters_eq hy hname (Predicate.named.inj hsame)]
    exact fits_standIn hscoped htypes hl hatom

/-! ### Schemas and tasks -/

theorem isTyped_of_distinct (h : c.IsWellScoped t .full (ctx.map (·.name)))
    (hdistinct : AreVariables (ctx ++ c.quantifiedParameters)) {ps : List Parameter}
    (hps : AreConsistent ps) (hsub : c.quantifiedParameters ⊆ ps) :
    IsTyped t ps.reverse (ctx.map (·.name)) c :=
  ⟨isBound_of_distinct h rfl hdistinct, fun _ hp => type_eq_of_areConsistent hps (hsub hp)⟩

/-- An effect with another condition. -/
structure ReplacesInEffect (t : Task) (types ctx : List Parameter) (known : Known)
    (e e' : Effect) : Prop where
  unchanged : e' = { e with condition := e'.condition }
  condition : Replaces t types known ((ctx ++ e.parameters).map (·.name)) e.condition e'.condition

/-- An action with other conditions. -/
structure ReplacesInAction (t : Task) (known : Known) (a a' : Action) : Prop where
  unchanged : a' = { a with precondition := a'.precondition, effects := a'.effects }
  precondition : Replaces t (actionVariables a).reverse known (a.parameters.map (·.name))
    a.precondition a'.precondition
  effects : List.Forall₂ (ReplacesInEffect t (actionVariables a).reverse a.parameters known)
    a.effects a'.effects

/-- An axiom with another condition. -/
structure ReplacesInAxiom (t : Task) (known : Known) (x x' : Axiom) : Prop where
  unchanged : x' = { x with condition := x'.condition }
  condition : Replaces t (x.parameters ++ x.condition.quantifiedParameters).reverse known
    (x.parameters.map (·.name)) x.condition x'.condition

/-- A task with other conditions. -/
structure ReplacesInTask (t : Task) (known : Known) (r : Task) : Prop where
  unchanged : r = { t with actions := r.actions, axioms := r.axioms, goal := r.goal }
  actions : List.Forall₂ (ReplacesInAction t known) t.actions r.actions
  axioms : List.Forall₂ (ReplacesInAxiom t known) t.axioms r.axioms
  goal : Replaces t t.goal.quantifiedParameters.reverse known [] t.goal r.goal

theorem parameters_subset_actionVariables (a : Action) :
    a.parameters ⊆ actionVariables a := by
  intro p hp
  simp [actionVariables, hp]

theorem precondition_subset_actionVariables (a : Action) :
    a.precondition.quantifiedParameters ⊆ actionVariables a := by
  intro p hp
  simp [actionVariables, hp]

theorem effect_subset_actionVariables {e : Effect} (he : e ∈ a.effects) :
    e.parameters ++ e.condition.quantifiedParameters ⊆ actionVariables a := by
  intro p hp
  rw [List.mem_append] at hp
  simp only [actionVariables, List.mem_append, List.mem_flatMap]
  exact hp.elim (fun hp => .inl (.inl (.inr ⟨e, he, hp⟩))) fun hp => .inr ⟨e, he, hp⟩

theorem traces_removeFromAction (h : a.IsWellScoped t .full)
    (htypes : AreConsistent (actionVariables a)) :
    Traces t (removeFromAction a) fun known a' => ReplacesInAction t known a a' := by
  have hprecondition := isTyped_of_distinct h.precondition h.distinct htypes
    (precondition_subset_actionVariables a)
  refine (traces_removeFrom hprecondition).bind fun d =>
    (Traces.mapM (R := fun known e e' =>
      ReplacesInEffect t (actionVariables a).reverse a.parameters known e e')
      fun e he => ?_).bind fun effects => .pure fun known heffects hd => ⟨rfl, hd, heffects⟩
  have hcondition := isTyped_of_distinct (h.effects e he).condition
    (h.effects e he).distinct_condition htypes
    (List.append_subset.mp (effect_subset_actionVariables he)).2
  exact (traces_removeFrom hcondition).bind fun d => .pure fun known hd => ⟨rfl, hd⟩

theorem traces_removeFromAxiom (h : x.IsWellScoped t .full) :
    Traces t (removeFromAxiom x) fun known x' => ReplacesInAxiom t known x x' :=
  (traces_removeFrom (isTyped_of_distinct h.condition h.distinct
    h.distinct.areConsistent (List.subset_append_right _ _))).bind fun _ =>
    .pure fun _ hd => ⟨rfl, hd⟩

theorem traces_removeFromTask (h : t.IsWellScoped .full)
    (htypes : ∀ a ∈ t.actions, AreConsistent (actionVariables a)) :
    Traces t (removeFromTask t) fun known r => ReplacesInTask t known r := by
  have hgoal : IsTyped t t.goal.quantifiedParameters.reverse (([] : List Parameter).map (·.name))
      t.goal := isTyped_of_distinct h.goal h.distinct h.distinct.areConsistent (List.Subset.refl _)
  exact (Traces.mapM fun a ha => traces_removeFromAction (h.actions a ha) (htypes a ha)).bind
    fun _ => (Traces.mapM fun x hx => traces_removeFromAxiom (h.axioms x hx)).bind
    fun _ => (traces_removeFrom hgoal).bind
    fun _ => .pure fun _ hgoal haxioms hactions => ⟨rfl, hactions, haxioms, hgoal⟩

/-- What an action becomes without universal quantifiers. -/
structure ActionKeepsMeaning (objects : String → List String) (new : List Axiom) (a a' : Action) :
    Prop where
  unchanged : a' = { a with precondition := a'.precondition, effects := a'.effects }
  precondition : KeepsMeaning objects new a.parameters a.precondition a'.precondition
  effects : List.Forall₂ (fun e e' => e' = { e with condition := e'.condition } ∧
    KeepsMeaning objects new (a.parameters ++ e.parameters) e.condition e'.condition)
    a.effects a'.effects

/-- What an axiom becomes without universal quantifiers. -/
structure AxiomKeepsMeaning (objects : String → List String) (new : List Axiom) (x x' : Axiom) :
    Prop where
  unchanged : x' = { x with condition := x'.condition }
  condition : KeepsMeaning objects new x.parameters x.condition x'.condition

/-- The axiom of a new predicate. -/
structure IsNewAxiom (t : Task) (new : List Axiom) (x : Axiom) : Prop where
  fresh : x.name ∉ t.predicates.map (·.name)
  external : x.external = x.parameters.length
  withoutUniversals : x.condition.hasUniversalPart = Bool.false
  fits : ∀ l ∈ x.condition.literals, ∀ y ∈ new, l.atom.predicate = .named y.name →
    Fits (x.parameters ++ x.condition.quantifiedParameters) y.parameters l.atom

/-- The rewritten task has new predicates with axioms, which have exactly one interpretation, and
its conditions have their former truth values there. -/
structure TaskKeepsMeaning (objects : String → List String) (t t' : Task) (new : List Axiom) :
    Prop where
  unchanged : t' = { t with
    predicates := t.predicates ++ new.map fun x => ⟨x.name, x.parameters, Bool.true⟩
    actions := t'.actions, axioms := t'.axioms, goal := t'.goal }
  actions : List.Forall₂ (ActionKeepsMeaning objects new) t.actions t'.actions
  axioms : ∃ kept, t'.axioms = kept ++ new ∧
    List.Forall₂ (AxiomKeepsMeaning objects new) t.axioms kept
  goal : KeepsMeaning objects new [] t.goal t'.goal
  names : (new.map (·.name)).Nodup
  isNew : ∀ x ∈ new, IsNewAxiom t new x
  rank : ∃ rank : String → Nat, ∀ x ∈ new, ∀ l ∈ x.condition.literals, ∀ y ∈ new,
    l.atom.predicate = .named y.name → rank y.name < rank x.name
  extension : ∀ s, ∃! s', IsExtension objects new s s'

section

variable (hnew : AreDefinitions t known new)
include hnew

theorem ReplacesInAction.keepsMeaning {a' : Action} (h : ReplacesInAction t known a a')
    (htypes : AreConsistent (actionVariables a)) (ha' : a'.IsWellScoped t' .withoutUniversals) :
    ActionKeepsMeaning objects new a a' := by
  obtain ⟨hunchanged, hprecondition, heffects⟩ := h
  have hparameters : a'.parameters = a.parameters := by rw [hunchanged]
  have houter : ∀ p ∈ a.parameters, p.type = typeIn (actionVariables a).reverse p.name :=
    fun p hp => type_eq_of_areConsistent htypes (parameters_subset_actionVariables a hp)
  refine ⟨hunchanged, ?_, ?_⟩
  · exact hprecondition.keepsMeaning houter hnew (hparameters ▸ ha'.precondition.inScope)
  · refine (List.forall₂_iff_get.mpr ⟨heffects.length_eq, fun i hi hi' => ?_⟩)
    obtain ⟨hsame, hcondition⟩ := heffects.get hi hi'
    have he' := (ha'.effects _ (List.get_mem a'.effects ⟨i, hi'⟩)).condition.inScope
    rw [hsame, hparameters] at he'
    refine ⟨hsame, hcondition.keepsMeaning ?_ hnew he'⟩
    rw [List.forall_mem_append]
    exact ⟨houter, fun p hp => type_eq_of_areConsistent htypes (effect_subset_actionVariables
      (List.get_mem a.effects ⟨i, hi⟩) (List.mem_append_left _ hp))⟩

theorem ReplacesInAxiom.keepsMeaning {x' : Axiom} (h : ReplacesInAxiom t known x x')
    (hx : x.IsWellScoped t .full) (hx' : x'.IsWellScoped t' .withoutUniversals) :
    AxiomKeepsMeaning objects new x x' := by
  have hparameters : x'.parameters = x.parameters := by rw [h.unchanged]
  refine ⟨h.unchanged, h.condition.keepsMeaning (fun p hp => ?_) hnew
    (hparameters ▸ hx'.condition.inScope)⟩
  exact type_eq_of_areConsistent hx.distinct.areConsistent (List.mem_append_left _ hp)

end

theorem forall₂_of_forall₂_of_mem {α β : Type} {R S : α → β → Prop} {P : α → Prop} {Q : β → Prop}
    {as : List α} {bs : List β} (h : List.Forall₂ R as bs) (hP : ∀ a ∈ as, P a)
    (hQ : ∀ b ∈ bs, Q b) (hS : ∀ a b, R a b → P a → Q b → S a b) : List.Forall₂ S as bs := by
  induction h with
  | nil => exact .nil
  | cons hab _ ih =>
      rw [List.forall_mem_cons] at hP hQ
      exact .cons (hS _ _ hab hP.1 hQ.1) (ih hP.2 hQ.2)

end Universal

open Universal

/-- Universal quantifiers are removed, and the truth value of all conditions is kept. -/
theorem Task.removeUniversals_keepsMeaning {t : Task} (h : t.IsWellScoped .full)
    (htypes : ∀ a ∈ t.actions, AreConsistent (actionVariables a)) {names : AxiomNames}
    (hnames : names.taken = t.predicates.map (·.name)) :
    ∃ new, ∀ objects, TaskKeepsMeaning objects t (t.removeUniversals names).1 new := by
  have hscoped := (isWellScoped_removeUniversals h names hnames).1
  obtain ⟨⟨entries, axioms, hadds⟩, -⟩ := keeps_removeFromTask h { names }
  obtain ⟨-, hdefined, htraces⟩ := traces_removeFromTask h htypes { names }
  rw [removeUniversals] at hscoped ⊢
  revert hadds hdefined htraces hscoped
  generalize (removeFromTask t).run { names } = result
  obtain ⟨r, s⟩ := result
  intro hscoped hadds hdefined htraces
  simp only [Id.run, foldl_define] at hscoped ⊢
  dsimp only at hadds hdefined htraces
  obtain rfl : s.known = entries := hadds.known.trans (List.append_nil entries)
  obtain rfl : s.axioms = axioms := hadds.defined
  obtain ⟨hunchanged, hactions, haxioms, hgoal⟩ := htraces s.known (List.Subset.refl _)
  have hnew : AreDefinitions t s.known s.axioms :=
    { heads := hadds.heads
      nodup := hadds.nodup
      fresh := fun e he => hnames ▸ hadds.fresh e he
      defined := fun x hx => (hdefined x hx).resolve_left List.not_mem_nil }
  have hscopedAxioms := List.forall_mem_append.mp hscoped.axioms
  refine ⟨s.axioms, fun objects => ?_⟩
  exact
    { unchanged := by rw [hunchanged]
      actions := forall₂_of_forall₂_of_mem hactions htypes hscoped.actions fun a a' haa' ha ha' =>
        haa'.keepsMeaning hnew ha ha'
      axioms := ⟨r.axioms, rfl, forall₂_of_forall₂_of_mem haxioms h.axioms hscopedAxioms.1
        fun x x' hxx' hx hx' => hxx'.keepsMeaning hnew hx hx'⟩
      goal := hgoal.keepsMeaning (List.forall_mem_nil _) hnew hscoped.goal.inScope
      names := hnew.nodup_names
      isNew := fun x hx =>
        { fresh := hnew.not_mem_predicates hx
          external := (hnew.defined x hx).external
          withoutUniversals := (hscopedAxioms.2 x hx).condition.inScope.hasUniversalPart
          fits := hnew.fits hx (hscopedAxioms.2 x hx).condition.inScope }
      rank := hnew.exists_rank
      extension := hnew.existsUnique_isExtension objects }

/-- The tasks that domains and problems describe keep their meaning without universal quantifiers. -/
theorem Task.elaborate_removeUniversals {domain : Pddl.Domain} {problem : Pddl.Problem} {t : Task}
    {warnings : List String} (h : Task.elaborate domain problem = (.ok t, warnings)) :
    ∃ new, ∀ objects, TaskKeepsMeaning objects t
      (t.removeUniversals { taken := t.predicates.map (·.name) }).1 new := by
  obtain ⟨hscoped, htypes⟩ := Task.elaborate_isWellScoped h
  exact Task.removeUniversals_keepsMeaning hscoped htypes rfl

section Example

private def word (name : String) : Sexpr := .atom ⟨name, none⟩

private def phrase (es : List Sexpr) : Sexpr := .list es default

private def typed (name type : String) : Pddl.TypedSymbol := ⟨⟨name, none⟩, [⟨type, none⟩]⟩

/-- All balls have to be in rooms, so that nothing can be finished without a room. -/
private def tidying : Pddl.Domain where
  name := ⟨"tidying", none⟩
  types := [⟨⟨"ball", none⟩, []⟩, ⟨⟨"room", none⟩, []⟩]
  predicates := [
    ⟨⟨"at", none⟩, [typed "?b" "ball", typed "?r" "room"], default⟩,
    ⟨⟨"done", none⟩, [], default⟩]
  actions := [{
    name := ⟨"finish", none⟩
    parameters := []
    precondition := some (phrase [word "forall", phrase [word "?b", word "-", word "ball"],
      phrase [word "exists", phrase [word "?r", word "-", word "room"],
        phrase [word "at", word "?b", word "?r"]]])
    effect := some (phrase [word "done"]) }]

private def tidy : Pddl.Problem where
  name := ⟨"tidy", none⟩
  domainName := ⟨"tidying", none⟩
  objects := [typed "b" "ball"]
  goal := some (phrase [word "done"])

/-- Nested quantifiers become two predicates, one defined by the other. -/
theorem tidying_removeUniversals : ∃ t, Task.elaborate tidying tidy = (.ok t, []) ∧
    ∃ new, new.map (·.name) = ["new-axiom@1", "new-axiom@0"] ∧
      ∀ objects, TaskKeepsMeaning objects t
        (t.removeUniversals { taken := t.predicates.map (·.name) }).1 new := by
  obtain ⟨t, ht⟩ : ∃ t, Task.elaborate tidying tidy = (.ok t, []) :=
    Task.exists_elaborate (by decide +kernel) (by decide +kernel)
  have hnames : ((Task.elaborate tidying tidy).1.toOption.map fun t =>
      (t.removeUniversals { taken := t.predicates.map (·.name) }).1.predicates.map (·.name)) =
      some ["at", "done", "new-axiom@1", "new-axiom@0"] := by
    decide +kernel
  have hdeclared : (Task.elaborate tidying tidy).1.toOption.map (·.predicates.map (·.name)) =
      some ["at", "done"] := by
    decide +kernel
  obtain ⟨new, hnew⟩ := Task.elaborate_removeUniversals ht
  rw [ht] at hnames hdeclared
  have hdeclared : t.predicates.map (·.name) = ["at", "done"] := Option.some.inj hdeclared
  have hadded := congrArg (·.predicates.map (·.name)) (hnew fun _ => []).unchanged
  dsimp only at hadded
  rw [List.map_append, List.map_map] at hadded
  have hall := hadded.symm.trans (Option.some.inj hnames)
  rw [hdeclared] at hall
  exact ⟨t, ht, new, (List.append_right_inj ["at", "done"]).mp hall, hnew⟩

end Example

end FinitePlanning
