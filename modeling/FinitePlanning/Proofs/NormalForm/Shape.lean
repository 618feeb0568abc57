import FinitePlanning.Proofs.Elaboration.Sorts
import FinitePlanning.Proofs.NormalForm.Transitions

/-!
The normal form that normalizing a task reaches. Its conditions have one of three shapes, each of
its actions does something, the parameters that were declared are the external ones, and no axiom
defines a predicate that is true initially or that an action changes.
-/

namespace FinitePlanning

/-- A condition that is true, a literal or a conjunction of at least two literals. -/
inductive Condition.IsFlat : Condition → Prop where
  | truth : IsFlat .true
  | literal (l : Literal) : IsFlat (.literal l)
  | and {ls : List Literal} (several : 2 ≤ ls.length) : IsFlat (.and (ls.map .literal))

namespace Condition

variable {c : Condition} {p : List Parameter × Condition}

theorem isFlat_of_isSimplified (hs : c.IsSimplified) (hc : c.conjunction?.isSome) : c.IsFlat := by
  obtain ⟨ls, hls⟩ := Option.isSome_iff_exists.mp hc
  rcases conjunction?_eq_some hls with ⟨rfl, -⟩ | ⟨l, rfl, -⟩ | rfl
  · exact .truth
  · exact .literal l
  · cases hs with
    | and several _ _ => exact .and (List.length_map _ ▸ several)

theorem isSimplified_of_mem_branches (hs : c.IsSimplified) (hp : p ∈ c.branches) :
    p.2.IsSimplified := by
  obtain ⟨d, hd, rfl⟩ := List.mem_map.mp hp
  exact isSimplified_splitExistential
    (isSimplified_of_mem_alternatives (isSimplified_disjunctiveForm hs) hd)

theorem isFlat_of_mem_branches {t : Task} {vars : List String}
    (hc : c.IsWellScoped t .withoutUniversals vars) (hp : p ∈ c.branches) (hfalse : p.2 ≠ .false) :
    p.2.IsFlat := by
  refine isFlat_of_isSimplified (isSimplified_of_mem_branches hc.simplified hp) ?_
  refine isSome_conjunction?_of_mem_branches hc.inScope.inFragment hc.simplified ?_ hp
  rintro rfl
  rw [branches_of_isConstant rfl, List.mem_singleton] at hp
  exact hfalse (congrArg Prod.snd hp)

end Condition

theorem Cost.IsOver.mono {t t' : Task} {k : Cost} {vars vars' : List String} (hk : k.IsOver t vars)
    (hobjects : t'.objects = t.objects) (hfunctions : t'.functions = t.functions)
    (hsub : vars ⊆ vars') : k.IsOver t' vars' := by
  cases k with
  | constant value => exact hk
  | function term =>
      refine ⟨hfunctions ▸ hk.1, fun x hx => ⟨fun hv => hsub ((hk.2 x hx).1 hv), ?_⟩⟩
      exact hobjects ▸ (hk.2 x hx).2

namespace Task

/-- The conditions of a task: its goal and those of its actions, effects and axioms. -/
def conditions (t : Task) : List Condition :=
  t.goal :: t.actions.flatMap (fun a => a.precondition :: a.effects.map (·.condition))
    ++ t.axioms.map (·.condition)

/-- A normal form of a task. -/
structure IsNormalFormOf (t' t : Task) : Prop extends t'.IsNormal where
  flat : ∀ c ∈ t'.conditions, c.IsFlat
  effective : ∀ a ∈ t'.actions, a.effects ≠ []
  costs : ∀ a ∈ t'.actions, ∀ k ∈ a.cost, k.IsOver t' (a.parameters.map (·.name))
  /-- Actions are copies of actions of the task, with further parameters. -/
  actionParameters : ∀ a' ∈ t'.actions, ∃ a ∈ t.actions, a'.name = a.name ∧
    a'.external = a.external ∧ a'.externalParameters = a.externalParameters
  /-- So are axioms, unless they define a predicate that the task does not declare. -/
  axiomParameters : ∀ x' ∈ t'.axioms, (∃ x ∈ t.axioms, x'.name = x.name ∧
    x'.external = x.external ∧ x'.externalParameters = x.externalParameters) ∨
      x'.name ∉ t.predicates.map (·.name) ∧
        ⟨x'.name, x'.externalParameters, true⟩ ∈ t'.predicates
  heads : ∀ x ∈ t'.axioms, ∃ q ∈ t'.predicates, q.name = x.name ∧
    q.arity = x.externalParameters.length
  underived : ∀ x ∈ t'.axioms, (∀ b ∈ t'.init, b.predicate ≠ .named x.name) ∧
    ∀ a ∈ t'.actions, ∀ e ∈ a.effects, e.literal.atom.predicate ≠ .named x.name

variable {t t' : Task}

/-- No axiom has the predicate of an atom that is not derived. -/
theorem predicate_ne_of_isDerived_eq_false {b : Atom} (hb : t.isDerived b = false) {x : Axiom}
    (hx : x ∈ t.axioms) : b.predicate ≠ .named x.name := by
  intro hname
  rw [isDerived, hname, List.any_eq_false] at hb
  exact hb x hx (beq_self_eq_true x.name)

/-! ### Schemas of the normal form -/

open Universal (TaskKeepsMeaning)

theorem predicates_splitConditions (t : Task) : t.splitConditions.predicates = t.predicates := by
  simp only [splitConditions, removeImpossible, eliminateExistentials, mapConditions,
    splitDisjunctions]

theorem goal_splitConditions (t : Task) : t.splitConditions.goal = t.goal := by
  simp only [splitConditions, removeImpossible, eliminateExistentials, mapConditions,
    splitDisjunctions]

theorem declarations_deriveGoal (t : Task) (names : AxiomNames) :
    (t.deriveGoal names).types = t.types ∧ (t.deriveGoal names).objects = t.objects ∧
    (t.deriveGoal names).functions = t.functions ∧ (t.deriveGoal names).init = t.init := by
  rw [deriveGoal]
  split
  · exact ⟨rfl, rfl, rfl, rfl⟩
  · exact ⟨rfl, rfl, rfl, rfl⟩

/-- The axiom that a complicated goal becomes is the only new one. -/
theorem of_mem_axioms_deriveGoal {names : AxiomNames}
    (hnames : ∀ q ∈ t.predicates, q.name ∈ names.taken) {x : Axiom}
    (hx : x ∈ (t.deriveGoal names).axioms) : x ∈ t.axioms ∨
      x.name ∉ t.predicates.map (·.name) ∧
        ⟨x.name, x.externalParameters, true⟩ ∈ (t.deriveGoal names).predicates := by
  rw [deriveGoal] at hx ⊢
  split at hx
  next => exact .inl hx
  next hgoal =>
    rw [if_neg hgoal]
    refine (List.mem_append.mp hx).imp_right fun hx => ?_
    obtain rfl := List.mem_singleton.mp hx
    refine ⟨fun hmem => ?_, List.mem_append_right _ (List.mem_singleton_self _)⟩
    obtain ⟨q, hq, hname⟩ := List.mem_map.mp hmem
    exact AxiomNames.fresh_not_mem_taken (hname ▸ hnames q hq)

/-- A simple goal is kept, and another one becomes an atom. -/
theorem isFlat_goal_deriveGoal {names : AxiomNames} (hgoal : t.goal.IsSimplified) :
    (t.deriveGoal names).goal.IsFlat := by
  rw [deriveGoal]
  split
  next hconjunction => exact Condition.isFlat_of_isSimplified hgoal hconjunction
  next => exact .literal _

/-- A task without universal quantifiers, of whose schemas a normal form has the branches. -/
structure IsBeforeSplitting (t t' r : Task) (names : AxiomNames) (new : List Axiom) : Prop where
  split : t' = (r.deriveGoal names).splitConditions
  wellScoped : r.IsWellScoped .withoutUniversals
  names : ∀ q ∈ r.predicates, q.name ∈ names.taken
  keeps : ∀ objects, TaskKeepsMeaning objects t r new

theorem exists_isBeforeSplitting (hscoped : t.IsWellScoped .full)
    (htypes : ∀ a ∈ t.actions, AreConsistent (Universal.actionVariables a))
    (hn : t.normalize = .ok t') : ∃ r names new, IsBeforeSplitting t t' r names new := by
  let start : AxiomNames := { taken := t.predicates.map (·.name) }
  have htaken : start.taken = t.predicates.map (·.name) := rfl
  obtain ⟨hsplit, -⟩ := of_normalize_eq_ok hn
  obtain ⟨hremoved, hnames⟩ := isWellScoped_removeUniversals hscoped start htaken
  obtain ⟨new, hnew⟩ := removeUniversals_keepsMeaning hscoped htypes htaken
  exact ⟨_, _, new, hsplit, hremoved, hnames, hnew⟩

namespace IsBeforeSplitting

variable {r : Task} {names : AxiomNames} {new : List Axiom} {a' : Action} {x' : Axiom}
  (h : IsBeforeSplitting t t' r names new)
include h

/-- Normalization keeps everything but schemas, predicates and the goal. -/
theorem declarations_eq : t'.types = t.types ∧ t'.objects = t.objects ∧
    t'.functions = t.functions ∧ t'.init = t.init := by
  obtain ⟨htypes, hobjects, hfunctions, hinit⟩ := declarations_splitConditions (r.deriveGoal names)
  obtain ⟨htypes', hobjects', hfunctions', hinit'⟩ := declarations_deriveGoal r names
  rw [h.split, htypes, hobjects, hfunctions, hinit, htypes', hobjects', hfunctions', hinit',
    (h.keeps fun _ => []).unchanged]
  exact ⟨rfl, rfl, rfl, rfl⟩

theorem hasSchemas : (r.deriveGoal names).HasSchemas .withoutUniversals :=
  (deriveGoal_spec h.wellScoped h.names).2.1

theorem predicates_subset : r.predicates ⊆ t'.predicates := by
  rw [h.split, predicates_splitConditions, deriveGoal]
  split
  · exact List.Subset.refl _
  · exact List.subset_append_left _ _

/-- An action of the normal form is a branch of an action of the task. -/
theorem of_mem_actions (ha' : a' ∈ t'.actions) : ∃ a ∈ t.actions, ∃ b, b ∈ r.actions ∧
    b = { a with precondition := b.precondition, effects := b.effects } ∧
    ∃ p ∈ b.precondition.branches, p.2 ≠ .false ∧ b.effectBranches ≠ [] ∧ a' = b.branch p := by
  rw [h.split, mem_actions_splitConditions, actions_deriveGoal] at ha'
  obtain ⟨b, hb, hbranch⟩ := ha'
  obtain ⟨a, ha, hkeeps⟩ := exists_of_mem_forall₂_right (h.keeps fun _ => []).actions hb
  exact ⟨a, ha, b, hb, hkeeps.unchanged, hbranch⟩

theorem isFlat_of_mem_actions (ha' : a' ∈ t'.actions) :
    a'.precondition.IsFlat ∧ ∀ e' ∈ a'.effects, e'.condition.IsFlat := by
  obtain ⟨-, -, b, hb, -, p, hp, hfalse, -, rfl⟩ := h.of_mem_actions ha'
  have hscoped := h.wellScoped.actions b hb
  refine ⟨Condition.isFlat_of_mem_branches hscoped.precondition hp hfalse, fun e' he' => ?_⟩
  obtain ⟨e, he, p', hp', hfalse', rfl⟩ := Action.mem_effectBranches.mp he'
  exact Condition.isFlat_of_mem_branches (hscoped.effects e he).condition hp' hfalse'

theorem isFlat_of_mem_axioms (hx' : x' ∈ t'.axioms) : x'.condition.IsFlat := by
  rw [h.split, mem_axioms_splitConditions] at hx'
  obtain ⟨x, hx, p, hp, hfalse, rfl⟩ := hx'
  exact Condition.isFlat_of_mem_branches (h.hasSchemas.axioms x hx).condition hp hfalse

theorem isFlat_of_mem_conditions {c : Condition} (hc : c ∈ t'.conditions) : c.IsFlat := by
  rw [conditions] at hc
  rcases List.mem_append.mp hc with hc | hc
  · rcases List.mem_cons.mp hc with rfl | hc
    · rw [h.split, goal_splitConditions]
      exact isFlat_goal_deriveGoal h.wellScoped.goal.simplified
    · obtain ⟨a', ha', hc⟩ := List.mem_flatMap.mp hc
      obtain ⟨hprecondition, heffects⟩ := h.isFlat_of_mem_actions ha'
      rcases List.mem_cons.mp hc with rfl | hc
      · exact hprecondition
      · obtain ⟨e', he', rfl⟩ := List.mem_map.mp hc
        exact heffects e' he'
  · obtain ⟨x', hx', rfl⟩ := List.mem_map.mp hc
    exact h.isFlat_of_mem_axioms hx'

/-- The variables of a branch come after the parameters that an action had. -/
theorem parameters_of_mem_actions
    (hexternal : ∀ a ∈ t.actions, a.external = a.parameters.length) (ha' : a' ∈ t'.actions) :
    ∃ a ∈ t.actions, a'.name = a.name ∧ a'.external = a.external ∧
      a'.externalParameters = a.externalParameters ∧ a'.cost = a.cost ∧
      a.parameters ⊆ a'.parameters := by
  obtain ⟨a, ha, b, -, hb, p, -, -, -, rfl⟩ := h.of_mem_actions ha'
  refine ⟨a, ha, ?_⟩
  rw [hb]
  refine ⟨rfl, rfl, ?_, rfl, List.subset_append_left _ _⟩
  exact List.take_append_of_le_length (hexternal a ha).le

theorem parameters_of_mem_axioms (hx' : x' ∈ t'.axioms) :
    (∃ x ∈ t.axioms, x'.name = x.name ∧ x'.external = x.external ∧
      x'.externalParameters = x.externalParameters) ∨
    x'.name ∉ t.predicates.map (·.name) ∧
      ⟨x'.name, x'.externalParameters, true⟩ ∈ t'.predicates := by
  rw [h.split, mem_axioms_splitConditions] at hx'
  obtain ⟨y, hy, p, -, -, rfl⟩ := hx'
  have hexternal : (y.branch p).externalParameters = y.externalParameters :=
    List.take_append_of_le_length (h.hasSchemas.axioms y hy).external
  rw [hexternal]
  obtain ⟨kept, haxioms, hkept⟩ := (h.keeps fun _ => []).axioms
  have hpredicates : r.predicates = t.predicates ++
      new.map fun x => ⟨x.name, x.parameters, true⟩ := by
    rw [(h.keeps fun _ => []).unchanged]
  rcases of_mem_axioms_deriveGoal h.names hy with hy | ⟨hfresh, hmem⟩
  · rw [haxioms] at hy
    rcases List.mem_append.mp hy with hy | hy
    · obtain ⟨x, hx, hkeeps⟩ := exists_of_mem_forall₂_right hkept hy
      refine .inl ⟨x, hx, ?_⟩
      rw [hkeeps.unchanged]
      exact ⟨rfl, rfl, rfl⟩
    · have hnew := (h.keeps fun _ => []).isNew y hy
      refine .inr ⟨hnew.fresh, h.predicates_subset ?_⟩
      rw [hpredicates, Axiom.externalParameters, hnew.external, List.take_length]
      exact List.mem_append_right _ (List.mem_map_of_mem hy)
  · refine .inr ⟨fun hdeclared => hfresh ?_, ?_⟩
    · rw [hpredicates, List.map_append]
      exact List.mem_append_left _ hdeclared
    · rw [h.split, predicates_splitConditions]
      exact hmem

end IsBeforeSplitting

/-! ### Normalization -/

/-- Normalization reaches the normal form of each task that a domain and a problem describe, unless
it fails. -/
theorem normalize_isNormalFormOf {domain : Pddl.Domain} {problem : Pddl.Problem}
    {warnings : List String} (h : Task.elaborate domain problem = (.ok t, warnings))
    (hn : t.normalize = .ok t') : t'.IsNormalFormOf t := by
  obtain ⟨hscoped, htypes⟩ := elaborate_isWellScoped h
  have hsorted := elaborate_isWellSorted h
  have hnormal := isNormal_normalize hscoped hn
  obtain ⟨r, names, new, hsplit⟩ := exists_isBeforeSplitting hscoped htypes hn
  obtain ⟨-, hobjects, hfunctions, -⟩ := hsplit.declarations_eq
  refine
    { hnormal with
      flat := fun c hc => hsplit.isFlat_of_mem_conditions hc
      effective := fun a' ha' => ?_
      costs := fun a' ha' k hk => ?_
      actionParameters := fun a' ha' => ?_
      axiomParameters := fun x' hx' => hsplit.parameters_of_mem_axioms hx'
      heads := fun x' hx' => ?_
      underived := fun x' hx' => ⟨fun b hb => ?_, fun a' ha' e' he' => ?_⟩ }
  · obtain ⟨-, -, b, -, -, p, -, -, hsome, rfl⟩ := hsplit.of_mem_actions ha'
    exact hsome
  · obtain ⟨a, ha, -, -, -, hcost, hsub⟩ := hsplit.parameters_of_mem_actions
      (elaborate_external h) ha'
    refine Cost.IsOver.mono ((hsorted.actions a ha).cost k (hcost ▸ hk)) hobjects hfunctions ?_
    exact List.map_subset _ hsub
  · obtain ⟨a, ha, hname, hexternal, hparameters, -⟩ := hsplit.parameters_of_mem_actions
      (elaborate_external h) ha'
    exact ⟨a, ha, hname, hexternal, hparameters⟩
  · obtain ⟨q, hq, hname, harity⟩ := (hnormal.axioms x' hx').arity
    refine ⟨q, hq, hname, harity.trans ?_⟩
    rw [Axiom.externalParameters, List.length_take, min_eq_left (hnormal.axioms x' hx').external]
  · exact predicate_ne_of_isDerived_eq_false (hnormal.init b hb).2 hx'
  · exact predicate_ne_of_isDerived_eq_false ((hnormal.actions a' ha').effects e' he').basic hx'

end Task

section Example

private def sign (name : String) : Sexpr := .atom ⟨name, none⟩

private def signs (es : List Sexpr) : Sexpr := .list es default

private def box (name : String) : Pddl.TypedSymbol := ⟨⟨name, none⟩, [⟨"box", none⟩]⟩

/-- A box is sealed if it is closed or in another box, and can be sent once it is. -/
private def sending : Pddl.Domain where
  name := ⟨"sending", none⟩
  types := [⟨⟨"box", none⟩, []⟩]
  predicates := [
    ⟨⟨"closed", none⟩, [box "?b"], default⟩,
    ⟨⟨"in", none⟩, [box "?b", box "?c"], default⟩,
    ⟨⟨"sealed", none⟩, [box "?b"], default⟩,
    ⟨⟨"sent", none⟩, [box "?b"], default⟩]
  actions := [{
    name := ⟨"send", none⟩
    parameters := [box "?b"]
    precondition := some (signs [sign "and", signs [sign "sealed", sign "?b"],
      signs [sign "not", signs [sign "sent", sign "?b"]]])
    effect := some (signs [sign "sent", sign "?b"]) }]
  derived := [{
    name := ⟨"sealed", none⟩
    parameters := [box "?b"]
    body := signs [sign "or", signs [sign "closed", sign "?b"],
      signs [sign "exists", signs [sign "?c", sign "-", sign "box"],
        signs [sign "in", sign "?b", sign "?c"]]]
    span := default }]

private def sendAll : Pddl.Problem where
  name := ⟨"send-all", none⟩
  domainName := ⟨"sending", none⟩
  objects := [box "b", box "c"]
  init := [signs [sign "in", sign "b", sign "c"]]
  goal := some (signs [sign "exists", signs [sign "?b", sign "-", sign "box"],
    signs [sign "sent", sign "?b"]])

/-- The goal becomes an axiom, and an axiom is split in two, one of which has a further parameter. -/
theorem sending_isNormalFormOf : ∃ t t', Task.elaborate sending sendAll = (.ok t, []) ∧
    t.normalize = .ok t' ∧ t'.axioms.map (fun x => (x.name, x.parameters.map (·.name), x.external)) =
      [("new-axiom@0", ["?b1"], 0), ("sealed", ["?b"], 1), ("sealed", ["?b", "?c"], 1)] ∧
    t'.IsNormalFormOf t := by
  obtain ⟨t, ht⟩ : ∃ t, Task.elaborate sending sendAll = (.ok t, []) :=
    Task.exists_elaborate (by decide +kernel) (by decide +kernel)
  have haxioms : ((Task.elaborate sending sendAll).1.toOption.bind fun t =>
      t.normalize.toOption.map fun t' =>
        t'.axioms.map fun x => (x.name, x.parameters.map (·.name), x.external)) =
      some [("new-axiom@0", ["?b1"], 0), ("sealed", ["?b"], 1), ("sealed", ["?b", "?c"], 1)] := by
    decide +kernel
  rw [ht] at haxioms
  obtain ⟨t', hn, haxioms⟩ := Option.map_eq_some_iff.mp haxioms
  have hn := toOption_eq_some_iff.mp hn
  exact ⟨t, t', ht, hn, haxioms, Task.normalize_isNormalFormOf ht hn⟩

end Example

end FinitePlanning
