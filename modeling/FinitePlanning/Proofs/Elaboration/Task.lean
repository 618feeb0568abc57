import FinitePlanning.Proofs.Elaboration.Declarations
import FinitePlanning.Proofs.Elaboration.Effects
import FinitePlanning.Task.Universal

/-!
Elaborated schemas and tasks. Their conditions are within the scope of their variables. The variables
that are quantified in a schema differ from its parameters, and from each other unless they come from
the same effect. Initial states are over the declared objects and predicates.
-/

namespace FinitePlanning
namespace Elaboration

open Universal (actionVariables)

variable {d : Declarations} {t : Task} {s s' s'' : ElaborationState} {ps : List Parameter}
  {inner : Scope} {symbols : List Pddl.TypedSymbol}

theorem reads_withInfo {α : Type} {act : Elaboration α} {symbol : Symbol} {label : String} {a : α}
    (h : Reads (act.withInfo symbol label) s a s') : Reads act s a s' :=
  reads_adapt h

/-- The scope of a schema consists of its parameters. -/
theorem Binds.isOver_parameters {rename : Bool} {seen : List String}
    (h : Binds rename seen s [] symbols ps inner s') : inner.IsOver (ps.map (·.name)) := by
  have hover := h.isOver isOver_nil
  rwa [List.nil_append] at hover

theorem isWellScoped_of_condition (hd : d.Describes t) {scope : Scope} {vars : List String}
    (hscope : scope.IsOver vars) {e : Sexpr} {c : Condition}
    (h : Reads (condition d scope e) s c s') :
    c.IsWellScoped t .full vars ∧ Declares s c.quantifiedParameters s' := by
  obtain ⟨⟨hscoped, hdeclares⟩, hsimplified⟩ := isRead_of_condition hd hscope h
  exact ⟨⟨hscoped, hsimplified⟩, hdeclares⟩

/-- Reads the precondition of an action, if there is one. -/
def precondition (d : Declarations) (scope : Scope) : Option Sexpr → Elaboration Condition
  | none => pure .true
  | some e => condition d scope e

/-- Reads the effect of an action, if there is one. -/
def outcome (d : Declarations) (scope : Scope) : Option Sexpr → Elaboration Outcome
  | none => pure {}
  | some e => effect d { scope } {} e

theorem action_eq (d : Declarations) (a : Pddl.ActionDeclaration) : action d a = do
    let r ← bind d.types false [] [] a.parameters
    let precondition ← precondition d r.2 a.precondition
    let outcome ← outcome d r.2 a.effect
    if outcome.effects.isEmpty then return none
    return some {
      name := a.name
      parameters := r.1
      external := r.1.length
      precondition
      effects := outcome.effects
      cost := outcome.cost } := by
  rw [action]
  cases a.precondition <;> cases a.effect <;> rfl

theorem isWellScoped_of_precondition (hd : d.Describes t) {scope : Scope} {vars : List String}
    (hscope : scope.IsOver vars) {e : Option Sexpr} {c : Condition}
    (h : Reads (precondition d scope e) s c s') :
    c.IsWellScoped t .full vars ∧ Declares s c.quantifiedParameters s' := by
  cases e with
  | none =>
      obtain ⟨rfl, rfl⟩ := reads_pure h
      exact ⟨⟨.truth, .truth⟩, Condition.quantifiedParameters_true ▸ .refl s⟩
  | some e => exact isWellScoped_of_condition hd hscope h

theorem isSingle_of_outcome (hd : d.Describes t) {scope : Scope} {outer : List Parameter}
    (hscope : scope.IsOver (outer.map (·.name))) {e : Option Sexpr} {o : Outcome}
    (h : Reads (outcome d scope e) s o s') :
    ∃ ps, Declares s ps s' ∧ ∀ f ∈ o.effects, IsSingle t outer ps f := by
  cases e with
  | none =>
      obtain ⟨rfl, rfl⟩ := reads_pure h
      exact ⟨[], .refl s, List.forall_mem_nil _⟩
  | some e =>
      have hw : Enclosure.IsOver { scope } t outer :=
        ⟨List.forall_mem_nil _, (List.append_nil outer).symm ▸ hscope⟩
      obtain ⟨fs, ⟨ps, hps, hsingle⟩, hadded⟩ := flattens_of_effect hd hw h
      exact ⟨ps, hps, fun f hf => hsingle f ((hadded f hf).resolve_left List.not_mem_nil)⟩

/-- The variables of an action with the given parts. -/
theorem isWellScoped_action {a : Action} {qs : List Parameter}
    (hparameters : AreVariables a.parameters)
    (hreserved : ∀ x ∈ a.parameters.map (·.name), x ∈ s.reserved)
    (hprecondition : a.precondition.IsWellScoped t .full (a.parameters.map (·.name)))
    (hinner : Declares s a.precondition.quantifiedParameters s') (hqs : Declares s' qs s'')
    (heffects : ∀ e ∈ a.effects, IsSingle t a.parameters qs e) :
    a.IsWellScoped t .full ∧ AreConsistent (actionVariables a) := by
  have hdistinct : AreVariables (a.parameters ++ (a.precondition.quantifiedParameters ++ qs)) :=
    (hinner.append hqs).areVariables_append hparameters hreserved
  constructor
  · refine ⟨hinner.areVariables_append hparameters hreserved, hprecondition, fun e he => ?_⟩
    have he := heffects e he
    refine ⟨hdistinct.of_subperm ?_, he.condition, he.literal, he.named⟩
    rw [← List.append_assoc a.parameters]
    exact (List.Subperm.refl _).append he.declared
  · refine hdistinct.areConsistent.of_subset fun p hp => ?_
    have hsingle : ∀ e ∈ a.effects, ∀ p ∈ e.parameters ++ e.condition.quantifiedParameters,
        p ∈ qs := fun e he p hp => (heffects e he).declared.subset hp
    simp only [actionVariables, List.mem_append, List.mem_flatMap] at hp hsingle ⊢
    rcases hp with ((hp | ⟨e, he, hp⟩) | hp) | ⟨e, he, hp⟩
    · exact .inl hp
    · exact .inr (.inr (hsingle e he p (.inl hp)))
    · exact .inr (.inl hp)
    · exact .inr (.inr (hsingle e he p (.inr hp)))

theorem isWellScoped_of_action (hd : d.Describes t) {declaration : Pddl.ActionDeclaration}
    {a : Action} (h : Reads (action d declaration) s (some a) s') :
    a.IsWellScoped t .full ∧ AreConsistent (actionVariables a) := by
  rw [action_eq] at h
  obtain ⟨⟨ps, inner⟩, q, hps, h⟩ := reads_bind h
  have hbinds := binds_of_reads hps
  obtain ⟨precondition, q₁, hprecondition, h⟩ := reads_bind h
  obtain ⟨hscoped, hinner⟩ := isWellScoped_of_precondition hd hbinds.isOver_parameters hprecondition
  obtain ⟨o, q₂, ho, h⟩ := reads_bind h
  obtain ⟨qs, hqs, heffects⟩ := isSingle_of_outcome hd hbinds.isOver_parameters ho
  split at h
  next =>
    obtain ⟨h, -⟩ := reads_pure h
    cases h
  next =>
    obtain ⟨h, -⟩ := reads_pure h
    cases h
    exact isWellScoped_action hbinds.areVariables hbinds.reserved hscoped hinner hqs heffects

/-- All parameters that were declared are external. -/
theorem external_of_action {declaration : Pddl.ActionDeclaration} {a : Action}
    (h : Reads (action d declaration) s (some a) s') : a.external = a.parameters.length := by
  rw [action_eq] at h
  obtain ⟨r, _, -, h⟩ := reads_bind h
  obtain ⟨precondition, _, -, h⟩ := reads_bind h
  obtain ⟨o, _, -, h⟩ := reads_bind h
  split at h
  next =>
    obtain ⟨h, -⟩ := reads_pure h
    cases h
  next =>
    obtain ⟨h, -⟩ := reads_pure h
    cases h
    rfl

theorem isWellScoped_of_axiomOf (hd : d.Describes t) {declaration : Pddl.DerivedDeclaration}
    (harity : t.HasArity (.named declaration.name.name) declaration.parameters.length) {x : Axiom}
    (h : Reads (axiomOf d declaration) s x s') : x.IsWellScoped t .full := by
  rw [axiomOf] at h
  obtain ⟨⟨ps, inner⟩, q, hps, h⟩ := reads_bind h
  have hbinds := binds_of_reads hps
  dsimp only at h
  obtain ⟨c, q₁, hc, h⟩ := reads_bind h
  obtain ⟨hscoped, hdeclares⟩ := isWellScoped_of_condition hd hbinds.isOver_parameters hc
  obtain ⟨rfl, -⟩ := reads_pure h
  exact ⟨hdeclares.areVariables_append hbinds.areVariables hbinds.reserved, hscoped,
    Nat.le_refl _, hbinds.length ▸ harity⟩

theorem isWellScoped_of_goal (hd : d.Describes t) {p : Pddl.Problem} {c : Condition}
    (h : Reads (goal d p) s c s') :
    AreVariables c.quantifiedParameters ∧ c.IsWellScoped t .full [] := by
  rw [goal] at h
  split at h
  next =>
    obtain ⟨hscoped, hdeclares⟩ := isWellScoped_of_condition hd isOver_nil (reads_adapt h)
    exact ⟨hdeclares.areVariables, hscoped⟩
  next => exact absurd h not_reads_throw

end Elaboration

open Elaboration

variable {d : Declarations} {t : Task} {s s' : ElaborationState}

/-- The declarations as the formulas of a task see them. -/
def Task.declarations (t : Task) : Declarations :=
  .ofSchemas t.types t.objects t.predicates t.functions

theorem Task.describes_declarations (t : Task) : t.declarations.Describes t :=
  ⟨rfl, Declarations.hasArity_of_ofSchemas⟩

theorem Atom.IsOver.isGround_of_closed {a : Atom} (h : a.IsOver t []) : a.IsGround t where
  arity := h.arity
  args x hx := by
    cases hvariable : isVariable x with
    | true => exact absurd ((h.args x hx).1 hvariable) List.not_mem_nil
    | false => exact (h.args x hx).2 hvariable

namespace Elaboration

/-! ### Initial states -/

/-- The atoms that were read are over the declared symbols, and none of them is an equality. -/
def InitialState.IsGround (t : Task) (i : InitialState) : Prop :=
  ∀ a ∈ i.atoms, a.IsGround t ∧ a.predicate ≠ .equal

theorem InitialState.of_assign {i i' : InitialState} {fact term value : Sexpr}
    (h : i.assign d fact term value = .ok i') :
    i'.atoms = i.atoms ∧ i'.positive = i.positive := by
  rw [InitialState.assign] at h
  split at h
  next =>
    cases h
    exact ⟨rfl, rfl⟩
  next =>
    obtain ⟨a, -, h⟩ := exists_of_bind_eq_ok h
    split at h
    next => cases h
    next =>
      obtain ⟨v, -, h⟩ := exists_of_bind_eq_ok h
      dsimp only at h
      split at h
      next => cases h
      next =>
        cases h
        exact ⟨rfl, rfl⟩

/-- A fact that is no assignment and not negated adds its atom, unless it was added before. -/
theorem InitialState.of_add {i i' : InitialState} {fact : Sexpr}
    (h : Reads (i.add d fact) s i' s') :
    (i'.atoms = i.atoms ∧ i'.positive = i.positive ∧
      ((∃ term value, fact.arguments? "=" = some [term, value]) ∨
        ∃ e a q, fact.arguments? "not" = some [e] ∧ Reads (atom d [] e) s a q)) ∨
    ∃ a q, Reads (atom d [] fact) s a q ∧ a.predicate ≠ .equal ∧
      i'.positive = (a, fact) :: i.positive ∧
      i'.atoms = if (i.positive.lookup a).isSome then i.atoms else i.atoms ++ [a] := by
  rw [InitialState.add] at h
  split at h
  next _ _ term value hequal =>
    obtain ⟨hatoms, hpositive⟩ := of_assign (reads_result h).1
    exact .inl ⟨hatoms, hpositive, .inl ⟨term, value, hequal⟩⟩
  next _ _ e hnot _ =>
    obtain ⟨a, q, ha, h⟩ := reads_bind h
    obtain ⟨rfl, -⟩ := reads_pure h
    exact .inl ⟨rfl, rfl, .inr ⟨e, a, q, hnot, ha⟩⟩
  next => exact absurd h not_reads_throw
  next =>
    obtain ⟨a, q, ha, h⟩ := reads_bind h
    by_cases hequal : a.predicate = .equal
    · rw [if_pos hequal] at h
      exact absurd h not_reads_throw_bind
    · rw [if_neg hequal] at h
      dsimp only at h
      refine .inr ⟨a, q, ha, hequal, ?_⟩
      split at h
      next hbefore =>
        obtain ⟨_, q', -, h⟩ := reads_bind h
        obtain ⟨rfl, -⟩ := reads_pure h
        exact ⟨rfl, (if_pos hbefore).symm⟩
      next hbefore =>
        obtain ⟨rfl, -⟩ := reads_pure h
        exact ⟨rfl, (if_neg hbefore).symm⟩

/-- Each atom was read as a fact of its own. -/
def InitialState.WasRead (d : Declarations) (facts : List Sexpr) (i : InitialState) : Prop :=
  ∀ a ∈ i.atoms, ∃ fact ∈ facts, ∃ s s', Reads (atom d [] fact) s a s' ∧ a.predicate ≠ .equal

theorem exists_reads_of_initialState {facts : List Sexpr} {i : InitialState}
    (h : Reads (initialState d facts) s i s') :
    ∃ s', Reads (facts.foldlM (InitialState.add d) {}) s i s' := by
  rw [initialState] at h
  obtain ⟨i', q, hi', h⟩ := reads_bind h
  obtain ⟨_, q', -, h⟩ := reads_bind h
  obtain ⟨rfl, -⟩ := reads_pure h
  exact ⟨q, hi'⟩

theorem wasRead_of_initialState {facts : List Sexpr} {i : InitialState}
    (h : Reads (initialState d facts) s i s') : i.WasRead d facts := by
  obtain ⟨_, hread⟩ := exists_reads_of_initialState h
  refine foldlM_keeps (fun fact hfact i q i' q' hi hread => ?_)
    (show InitialState.WasRead d facts {} from List.forall_mem_nil _) hread
  rcases InitialState.of_add hread with ⟨hsame, -, -⟩ | ⟨b, q', hb, hequal, -, hadded⟩
  · rwa [InitialState.WasRead, hsame]
  · rw [InitialState.WasRead, hadded]
    split
    · exact hi
    · exact List.forall_mem_append.mpr
        ⟨hi, List.forall_mem_singleton.mpr ⟨fact, hfact, q, q', hb, hequal⟩⟩

/-- The facts that were added are the atoms. -/
def InitialState.ListsFacts (i : InitialState) : Prop :=
  ∀ a, (i.positive.lookup a).isSome = true → a ∈ i.atoms

theorem InitialState.ListsFacts.add {i i' : InitialState} (hi : i.ListsFacts) {fact : Sexpr}
    (h : Reads (i.add d fact) s i' s') : i'.ListsFacts := by
  rcases of_add h with ⟨hatoms, hpositive, -⟩ | ⟨a, q, -, -, hpositive, hatoms⟩
  · rwa [ListsFacts, hatoms, hpositive]
  · intro b hb
    rw [hpositive, List.lookup_cons] at hb
    rw [hatoms]
    by_cases hsame : b = a
    · subst hsame
      split
      next hbefore => exact hi b hbefore
      next => exact List.mem_append_right _ (List.mem_singleton_self b)
    · rw [beq_false_of_ne hsame] at hb
      split
      next => exact hi b hb
      next => exact List.mem_append_left _ (hi b hb)

theorem InitialState.mem_atoms_add {i i' : InitialState} {fact : Sexpr}
    (h : Reads (i.add d fact) s i' s') {a : Atom} (ha : a ∈ i.atoms) : a ∈ i'.atoms := by
  rcases of_add h with ⟨hatoms, -⟩ | ⟨b, q, -, -, -, hatoms⟩
  · rwa [hatoms]
  · rw [hatoms]
    split
    · exact ha
    · exact List.mem_append_left _ ha

theorem isGround_of_initialState (hd : d.Describes t) {facts : List Sexpr} {i : InitialState}
    (h : Reads (initialState d facts) s i s') : i.IsGround t := by
  intro a ha
  obtain ⟨fact, -, q, q', hread, hequal⟩ := wasRead_of_initialState h a ha
  exact ⟨(isOver_of_atom hd isOver_nil hread).1.isGround_of_closed, hequal⟩

/-! ### Tasks -/

/-- With the trivial equalities the initial state is that of a task. -/
theorem isDeclared_of_initialState {i : InitialState} (hi : i.IsGround t)
    (hinit : t.init = i.atoms ++ t.objects.map fun o => ⟨.equal, [o.name, o.name]⟩)
    (hobjects : (t.objects.map (·.name)).Nodup) (hpredicates : (t.predicates.map (·.name)).Nodup) :
    t.IsDeclared where
  objects := hobjects
  predicates := hpredicates
  init := by
    rw [hinit, List.forall_mem_append, List.forall_mem_map]
    refine ⟨fun a ha => (hi a ha).1, fun o ho => ⟨rfl, fun x hx => ?_⟩⟩
    obtain rfl : x = o.name := by simpa using hx
    exact List.mem_map_of_mem ho
  equal args := by
    rw [hinit, List.mem_append]
    constructor
    · rintro (hmem | hmem)
      · exact absurd rfl (hi _ hmem).2
      · obtain ⟨o, ho, heq⟩ := List.mem_map.mp hmem
        exact ⟨o.name, List.mem_map_of_mem ho, (Atom.mk.inj heq).2.symm⟩
    · rintro ⟨x, hx, rfl⟩
      obtain ⟨o, ho, rfl⟩ := List.mem_map.mp hx
      exact .inr (List.mem_map_of_mem ho)

/-- The parts of an elaborated task, with the runs that read them. -/
structure ElaboratesTo (domain : Pddl.Domain) (problem : Pddl.Problem) (t : Task) : Prop where
  types : Declarations.typeHierarchy domain.types = .ok t.types
  predicates : Declarations.predicateSchemas t.types domain = .ok t.predicates
  functions : Declarations.functionSchemas t.types domain = .ok t.functions
  objects : Declarations.objectList t.types (domain.constants ++ problem.objects) = .ok t.objects
  actions : ∀ a ∈ t.actions, ∃ declaration ∈ domain.actions, ∃ s s',
    Reads (action t.declarations declaration) s (some a) s'
  axioms : ∀ x ∈ t.axioms, ∃ declaration ∈ domain.derived, ∃ s s',
    Reads (axiomOf t.declarations declaration) s x s'
  init : ∃ i s s', Reads (initialState t.declarations problem.init) s i s' ∧
    t.init = i.atoms ++ t.objects.map fun o => ⟨.equal, [o.name, o.name]⟩
  goal : ∃ s s', Reads (goal t.declarations problem) s t.goal s'

theorem elaboratesTo_of_reads {domain : Pddl.Domain} {problem : Pddl.Problem}
    (h : Reads (task domain problem) s t s') : ElaboratesTo domain problem t := by
  rw [task] at h
  split at h
  next => exact absurd h not_reads_throw_bind
  next =>
    obtain ⟨types, q₁, htypes, h⟩ := reads_bind h
    obtain ⟨predicates, q₂, hpredicates, h⟩ := reads_bind h
    obtain ⟨functions, q₃, hfunctions, h⟩ := reads_bind h
    obtain ⟨objects, q₄, hobjects, h⟩ := reads_bind h
    obtain ⟨actions, q₅, hactions, h⟩ := reads_bind h
    obtain ⟨axioms, q₆, haxioms, h⟩ := reads_bind h
    obtain ⟨init, q₇, hinit, h⟩ := reads_bind h
    obtain ⟨goal, q₈, hgoal, h⟩ := reads_bind h
    obtain ⟨minimizes, q₉, hminimizes, h⟩ := reads_bind h
    obtain ⟨rfl, -⟩ := reads_pure h
    refine
      { types := (reads_result htypes).1
        predicates := (reads_result hpredicates).1
        functions := (reads_result hfunctions).1
        objects := (reads_result hobjects).1
        actions := fun a ha => ?_
        axioms := fun x hx => ?_
        init := ⟨init, _, _, hinit, rfl⟩
        goal := ⟨_, _, hgoal⟩ }
    · obtain ⟨declaration, hmem, q, q', hread⟩ := exists_reads_of_mem_filterMapM hactions ha
      exact ⟨declaration, hmem, q, q', reads_withInfo hread⟩
    · obtain ⟨declaration, hmem, q, q', hread⟩ := exists_reads_of_mem_mapM haxioms hx
      exact ⟨declaration, hmem, q, q', reads_withInfo hread⟩

theorem ElaboratesTo.isWellScoped {domain : Pddl.Domain} {problem : Pddl.Problem}
    (h : ElaboratesTo domain problem t) : t.IsWellScoped .full ∧
      ∀ a ∈ t.actions, AreConsistent (Universal.actionVariables a) ∧
        a.external = a.parameters.length := by
  have hd := t.describes_declarations
  obtain ⟨hnames, hderived⟩ := Declarations.nodup_of_predicateSchemas h.predicates
  have hobjects := Declarations.nodup_of_objectList h.objects
  have hschemas : ∀ a ∈ t.actions, (a.IsWellScoped t .full ∧
      AreConsistent (Universal.actionVariables a)) ∧ a.external = a.parameters.length := by
    intro a ha
    obtain ⟨declaration, -, q, q', hread⟩ := h.actions a ha
    exact ⟨isWellScoped_of_action hd hread, external_of_action hread⟩
  have hrules : ∀ x ∈ t.axioms, x.IsWellScoped t .full := fun x hx => by
    obtain ⟨declaration, hmem, q, q', hread⟩ := h.axioms x hx
    exact isWellScoped_of_axiomOf hd (hderived declaration hmem) hread
  obtain ⟨init, _, _, hinit, hstart⟩ := h.init
  obtain ⟨_, _, hgoal⟩ := h.goal
  obtain ⟨hdistinct, hscoped⟩ := isWellScoped_of_goal hd hgoal
  refine ⟨⟨isDeclared_of_initialState (isGround_of_initialState hd hinit) hstart hobjects hnames,
    ⟨fun a ha => (hschemas a ha).1.1, hrules⟩, hdistinct, hscoped⟩, fun a ha => ?_⟩
  exact ⟨(hschemas a ha).1.2, (hschemas a ha).2⟩

end Elaboration

theorem Task.exists_elaborate {domain : Pddl.Domain} {problem : Pddl.Problem}
    {warnings : List String} (hok : (Task.elaborate domain problem).1.toOption.isSome = true)
    (hwarnings : (Task.elaborate domain problem).2 = warnings) :
    ∃ t, Task.elaborate domain problem = (.ok t, warnings) := by
  obtain ⟨t, ht⟩ := Option.isSome_iff_exists.mp hok
  exact ⟨t, Prod.ext (toOption_eq_some_iff.mp ht) hwarnings⟩

section

variable {domain : Pddl.Domain} {problem : Pddl.Problem} {warnings : List String}
  (h : Task.elaborate domain problem = (.ok t, warnings))
include h

theorem Task.elaboratesTo : Elaboration.ElaboratesTo domain problem t := by
  have hread : ∃ s', Reads (task domain problem) {} t s' :=
    ⟨_, Prod.ext (Prod.ext_iff.mp h).1 rfl⟩
  obtain ⟨_, hread⟩ := hread
  exact elaboratesTo_of_reads hread

/-- An elaborated task is well scoped, and in each of its actions a variable has only one type. -/
theorem Task.elaborate_isWellScoped :
    t.IsWellScoped .full ∧ ∀ a ∈ t.actions, AreConsistent (Universal.actionVariables a) := by
  obtain ⟨hscoped, hactions⟩ := (Task.elaboratesTo h).isWellScoped
  exact ⟨hscoped, fun a ha => (hactions a ha).1⟩

/-- All parameters of the actions of an elaborated task are external. -/
theorem Task.elaborate_external : ∀ a ∈ t.actions, a.external = a.parameters.length :=
  fun a ha => ((Task.elaboratesTo h).isWellScoped.2 a ha).2

end

end FinitePlanning
