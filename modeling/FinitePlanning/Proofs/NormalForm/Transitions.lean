import FinitePlanning.Proofs.Condition.Branches
import FinitePlanning.Proofs.NormalForm.Normalize
import FinitePlanning.Proofs.NormalForm.Removal

/-!
The transition system of a task with arbitrary conditions. Schemas are split into one schema for
each branch of their condition; the instances of these are the instances of the former ones with
values for the variables of a branch, which neither the effects nor the other conditions mention.
So splitting the conditions keeps the successors of each state, apart from the state itself, since
actions without effects are removed. It keeps what the axioms say, whatever negations are read
against.
-/

namespace FinitePlanning

section Branches

open Condition
open Grounding (valuesOf)

variable {t : Task} {k : Fragment} {c : Condition} {a : Action} {e : Effect} {x : Axiom}
  {outer inner ps : List Parameter} {p : List Parameter × Condition} {s N X : Interpretation}
  {args os : List String} {values : Renaming}

/-! ### Variables of schemas -/

/-- What is in the scope of an effect is no variable of a quantifier. -/
theorem Effect.IsWellScoped.not_mem_quantified (h : e.IsWellScoped t k outer inner) {y : String}
    (hy : isVariable y = Bool.true → y ∈ (outer ++ e.parameters).map (·.name)) :
    y ∉ inner.map (·.name) ∧ y ∉ e.condition.quantifiedParameters.map (·.name) := by
  constructor
  · intro hinner
    have hvariable := h.distinct.left.right.isVariable_of_mem hinner
    rcases List.mem_append.mp (List.map_append ▸ hy hvariable) with houter | hown
    · exact h.distinct.left.disjoint houter hinner
    · refine h.distinct.disjoint (x := y) ?_ ?_
      · exact List.map_append ▸ List.mem_append_right _ hinner
      · exact List.map_append ▸ List.mem_append_left _ hown
  · intro hquantified
    exact h.distinct_condition.disjoint
      (hy (h.distinct_condition.right.isVariable_of_mem hquantified)) hquantified

/-- Values of the variables of the precondition do not matter to the condition of an effect. -/
theorem Effect.IsWellScoped.holds_inner (h : e.IsWellScoped t k outer inner) (hps : ps ⊆ inner)
    {objects : String → List String} {args' : List String}
    (hos : TypedBy objects e.parameters os) :
    e.condition.Holds objects s (valuesOf e.parameters os ++ (valuesOf ps args' ++ values)) ↔
      e.condition.Holds objects s (valuesOf e.parameters os ++ values) := by
  rw [holds_iff_holdsWith, holds_iff_holdsWith]
  refine holdsWith_congr fun y hy => apply_append_congr hos fun _ => ?_
  refine Renaming.apply_append_of_not_mem fun hmem => ?_
  have hinner := (h.not_mem_quantified ((isScoped_iff.mp h.condition.inScope).2.2 y hy)).1
  exact hinner (List.map_subset _ hps (Grounding.mem_keys_valuesOf hmem))

/-- Nor do they, or values of variables of its condition, matter to the literal of an effect. -/
theorem Effect.IsWellScoped.rename_inner (h : e.IsWellScoped t k outer inner) (hps : ps ⊆ inner)
    {qs : List Parameter} (hqs : qs ⊆ e.condition.quantifiedParameters)
    {objects : String → List String} {args' os' : List String}
    (hos : TypedBy objects e.parameters os) :
    e.literal.rename
      (valuesOf qs os' ++ (valuesOf e.parameters os ++ (valuesOf ps args' ++ values))) =
      e.literal.rename (valuesOf e.parameters os ++ values) := by
  refine Literal.rename_eq fun y hy => ?_
  obtain ⟨hinner, hquantified⟩ := h.not_mem_quantified (h.literal.args y hy).1
  rw [Renaming.apply_append_of_not_mem fun hmem =>
    hquantified (List.map_subset _ hqs (Grounding.mem_keys_valuesOf hmem))]
  exact apply_append_congr hos fun _ => Renaming.apply_append_of_not_mem fun hmem =>
    hinner (List.map_subset _ hps (Grounding.mem_keys_valuesOf hmem))

/-! ### Branches of schemas -/

def Effect.branch (e : Effect) (p : List Parameter × Condition) : Effect :=
  { e with parameters := e.parameters ++ p.1, condition := p.2 }

/-- The branches of all effects of an action, impossible ones left out. -/
def Action.effectBranches (a : Action) : List Effect :=
  let effects := Task.splitItems Effect.condition (fun e c => { e with condition := c })
    (a.effects.map fun e => { e with condition := e.condition.disjunctiveForm })
  let effects := effects.map fun e => { e with condition := e.condition.pullExistentials }
  (effects.map Task.eliminateInEffect).filter (·.condition ≠ .false)

def Action.branch (a : Action) (p : List Parameter × Condition) : Action :=
  { a with
    parameters := a.parameters ++ p.1
    precondition := p.2
    effects := a.effectBranches }

def Axiom.branch (x : Axiom) (p : List Parameter × Condition) : Axiom :=
  { x with parameters := x.parameters ++ p.1, condition := p.2 }

theorem Action.mem_effectBranches {e' : Effect} : e' ∈ a.effectBranches ↔
    ∃ e ∈ a.effects, ∃ p ∈ e.condition.branches, p.2 ≠ .false ∧ e' = e.branch p := by
  simp only [effectBranches, List.mem_filter, List.mem_map, decide_eq_true_eq,
    Task.mem_splitItems, implies_true, exists_exists_and_eq_and, branches]
  constructor
  · rintro ⟨⟨_, ⟨e, he, d, hd, rfl⟩, rfl⟩, hfalse⟩
    exact ⟨e, he, d, hd, hfalse, rfl⟩
  · rintro ⟨e, he, d, hd, hfalse, rfl⟩
    exact ⟨⟨_, ⟨e, he, d, hd, rfl⟩, rfl⟩, hfalse⟩

namespace Task

/-- Splits all conditions into branches that are conjunctions of literals. -/
def splitConditions (t : Task) : Task :=
  let t := (t.mapConditions Condition.disjunctiveForm).splitDisjunctions
  (t.mapConditions Condition.pullExistentials).eliminateExistentials.removeImpossible

theorem declarations_splitConditions (t : Task) : t.splitConditions.types = t.types ∧
    t.splitConditions.objects = t.objects ∧ t.splitConditions.functions = t.functions ∧
    t.splitConditions.init = t.init := by
  simp only [splitConditions, removeImpossible, eliminateExistentials, mapConditions,
    splitDisjunctions, and_self]

theorem objectsOf_splitConditions (t : Task) : t.splitConditions.objectsOf = t.objectsOf := by
  obtain ⟨htypes, hobjects, -, -⟩ := declarations_splitConditions t
  funext type
  rw [objectsOf, objectsOf, htypes, hobjects]

theorem normalizeConditions_eq (t : Task) (names : AxiomNames) :
    t.normalizeConditions names =
      ((t.removeUniversals names).1.deriveGoal (t.removeUniversals names).2).splitConditions :=
  rfl

theorem mem_actions_splitConditions {a' : Action} : a' ∈ t.splitConditions.actions ↔
    ∃ a ∈ t.actions, ∃ p ∈ a.precondition.branches, p.2 ≠ .false ∧ a.effectBranches ≠ [] ∧
      a' = a.branch p := by
  simp only [splitConditions, removeImpossible, eliminateExistentials, mapConditions,
    splitDisjunctions, List.mem_filter, List.mem_map, Bool.and_eq_true, decide_eq_true_eq,
    Bool.not_eq_true', List.isEmpty_eq_false_iff, mem_splitItems, implies_true,
    exists_exists_and_eq_and, branches]
  constructor
  · rintro ⟨⟨_, ⟨a, ha, d, hd, rfl⟩, rfl⟩, hfalse, hsome⟩
    exact ⟨a, ha, d, hd, hfalse, hsome, rfl⟩
  · rintro ⟨a, ha, d, hd, hfalse, hsome, rfl⟩
    exact ⟨⟨_, ⟨a, ha, d, hd, rfl⟩, rfl⟩, hfalse, hsome⟩

theorem mem_axioms_splitConditions {x' : Axiom} : x' ∈ t.splitConditions.axioms ↔
    ∃ x ∈ t.axioms, ∃ p ∈ x.condition.branches, p.2 ≠ .false ∧ x' = x.branch p := by
  simp only [splitConditions, removeImpossible, eliminateExistentials, mapConditions,
    splitDisjunctions, List.mem_filter, List.mem_map, decide_eq_true_eq,
    mem_splitItems, implies_true, exists_exists_and_eq_and, branches]
  constructor
  · rintro ⟨⟨_, ⟨x, hx, d, hd, rfl⟩, rfl⟩, hfalse⟩
    exact ⟨x, hx, d, hd, hfalse, rfl⟩
  · rintro ⟨x, hx, d, hd, hfalse, rfl⟩
    exact ⟨⟨_, ⟨x, hx, d, hd, rfl⟩, rfl⟩, hfalse⟩

end Task

end Branches

open Condition
open Grounding (valuesOf)

/-- Positive literals are read in one interpretation, negative ones in another. -/
def Literal.HoldsIn (X N : Interpretation) (l : Literal) : Prop :=
  if l.negated then l.atom ∉ N else l.atom ∈ X

namespace Task

/-- The states that the instances of the actions of a name with some external arguments lead to. -/
def successors (t : Task) (s : Interpretation) (name : String) (external : List String) :
    Set Interpretation :=
  {s' | ∃ a ∈ t.actions, a.name.name = name ∧ ∃ args, args.take a.external = external ∧
    t.Applicable s a args ∧ s' = t.successor s a args}

/-- The axioms give no further atoms if negations are read against `N`. -/
def IsClosed (t : Task) (N X : Interpretation) : Prop :=
  ∀ x ∈ t.axioms, ∀ args, t.Typed x.parameters args →
    x.condition.HoldsWith t.objectsOf (Literal.HoldsIn X N) (valuesOf x.parameters args) →
    Atom.named x.name (args.take x.external) ∈ X

/-- What follows from the atoms of `s` if negations are read against `N`. -/
def consequencesOf (t : Task) (s N : Interpretation) : Interpretation :=
  {b | ∀ X, s ⊆ X → t.IsClosed N X → b ∈ X}

/-- The atoms that are true in the well-founded model of the axioms. -/
def model (t : Task) (s : Interpretation) : Interpretation :=
  {b | ∀ N, t.consequencesOf s (t.consequencesOf s N) ⊆ N → b ∈ N}

variable {t : Task} {a : Action} {p : List Parameter × Condition} {s N X : Interpretation}
  {args os : List String}

/-! ### Successors -/

/-- The effects of a branch make the same literals true. -/
theorem triggers_branch (ha : a.IsWellScoped t .withoutUniversals)
    (hp : p ∈ a.precondition.branches) (hargs : t.Typed a.parameters args) {l : Literal} :
    t.Triggers s (a.branch p) (args ++ os) l ↔ t.Triggers s a args l := by
  have hps : p.1 ⊆ a.precondition.quantifiedParameters :=
    (splitsInto_of_mem_branches ha.precondition.inScope.inFragment hp).quantified.subset
  have hvalues : valuesOf (a.branch p).parameters (args ++ os) =
      valuesOf p.1 os ++ valuesOf a.parameters args := valuesOf_append hargs.length_eq
  rw [Triggers, hvalues]
  constructor
  · rintro ⟨_, he', _, hos', hholds, hliteral⟩
    obtain ⟨e, he, q, hq, -, rfl⟩ := Action.mem_effectBranches.mp he'
    obtain ⟨os₁, os₂, hos₁, hos₂, rfl⟩ := typedBy_append.mp hos'
    have he' := ha.effects e he
    have hfragment := he'.condition.inScope.inFragment
    have hqs := (splitsInto_of_mem_branches hfragment hq).quantified.subset
    rw [Effect.branch, valuesOf_append hos₁.length_eq, List.append_assoc] at hholds hliteral
    have hcondition := (holds_branches hfragment he'.condition.simplified he'.isRectified).mp
      ⟨q, hq, os₂, hos₂, hholds⟩
    exact ⟨e, he, os₁, hos₁, (he'.holds_inner hps hos₁).mp hcondition,
      (he'.rename_inner hps hqs hos₁).symm.trans hliteral⟩
  · rintro ⟨e, he, os₁, hos₁, hholds, hliteral⟩
    have he' := ha.effects e he
    have hfragment := he'.condition.inScope.inFragment
    obtain ⟨q, hq, os₂, hos₂, hbranch⟩ := (holds_branches hfragment he'.condition.simplified
      he'.isRectified).mpr ((he'.holds_inner hps hos₁).mpr hholds)
    have hqs := (splitsInto_of_mem_branches hfragment hq).quantified.subset
    refine ⟨e.branch q, Action.mem_effectBranches.mpr ⟨e, he, q, hq, ?_, rfl⟩, os₁ ++ os₂,
      typedBy_append.mpr ⟨os₁, os₂, hos₁, hos₂, rfl⟩, ?_, ?_⟩
    · exact fun hfalse => not_holds_false (hfalse ▸ hbranch)
    · rw [Effect.branch, valuesOf_append hos₁.length_eq, List.append_assoc]
      exact hbranch
    · rw [Effect.branch, valuesOf_append hos₁.length_eq, List.append_assoc]
      exact (he'.rename_inner hps hqs hos₁).trans hliteral

theorem successor_branch (ha : a.IsWellScoped t .withoutUniversals)
    (hp : p ∈ a.precondition.branches) (hargs : t.Typed a.parameters args) :
    t.successor s (a.branch p) (args ++ os) = t.successor s a args := by
  simp only [successor, triggers_branch ha hp hargs]

theorem successor_of_effects_eq_nil (h : a.effects = []) : t.successor s a args = s := by
  simp [successor, Triggers, h]

theorem applicable_splitConditions :
    t.splitConditions.Applicable s a args ↔ t.Applicable s a args := by
  rw [Applicable, Typed, Holds, objectsOf_splitConditions, Applicable]

theorem successor_splitConditions : t.splitConditions.successor s a args = t.successor s a args := by
  simp only [successor, Triggers, Typed, Holds, objectsOf_splitConditions]

/-- Splitting keeps the successors of a state. -/
theorem HasSchemas.successors_splitConditions (h : t.HasSchemas .withoutUniversals)
    (hexternal : ∀ a ∈ t.actions, a.external ≤ a.parameters.length) (s : Interpretation)
    (name : String) (external : List String) :
    t.splitConditions.successors s name external \ {s} = t.successors s name external \ {s} := by
  ext s'
  refine and_congr_left fun hne => ?_
  constructor
  · rintro ⟨_, ha', hname, _, htake, happlicable, rfl⟩
    obtain ⟨a, ha, p, hp, -, -, rfl⟩ := mem_actions_splitConditions.mp ha'
    obtain ⟨hargs', hholds⟩ := applicable_splitConditions.mp happlicable
    obtain ⟨args, os, hargs, hos, rfl⟩ := typedBy_append.mp hargs'
    have hscoped := h.actions a ha
    have hle : a.external ≤ args.length := hargs.length_eq ▸ hexternal a ha
    refine ⟨a, ha, hname, args, ?_, ⟨hargs, ?_⟩,
      successor_splitConditions.trans (successor_branch hscoped hp hargs)⟩
    · exact (List.take_append_of_le_length hle).symm.trans htake
    · rw [Action.branch, valuesOf_append hargs.length_eq] at hholds
      exact (holds_branches hscoped.precondition.inScope.inFragment
        hscoped.precondition.simplified hscoped.isRectified).mp ⟨p, hp, os, hos, hholds⟩
  · rintro ⟨a, ha, hname, args, htake, ⟨hargs, hholds⟩, rfl⟩
    have hscoped := h.actions a ha
    have hle : a.external ≤ args.length := hargs.length_eq ▸ hexternal a ha
    obtain ⟨p, hp, os, hos, hbranch⟩ := (holds_branches hscoped.precondition.inScope.inFragment
      hscoped.precondition.simplified hscoped.isRectified).mpr hholds
    have hsuccessor : t.successor s (a.branch p) (args ++ os) = t.successor s a args :=
      successor_branch hscoped hp hargs
    refine ⟨a.branch p, mem_actions_splitConditions.mpr ⟨a, ha, p, hp, ?_, ?_, rfl⟩, hname,
      args ++ os, (List.take_append_of_le_length hle).trans htake,
      applicable_splitConditions.mpr ⟨?_, ?_⟩, (successor_splitConditions.trans hsuccessor).symm⟩
    · exact fun hfalse => not_holds_false (hfalse ▸ hbranch)
    · -- an action without effects leads back to the state
      exact fun hnil => hne (hsuccessor.symm.trans (successor_of_effects_eq_nil hnil))
    · exact typedBy_append.mpr ⟨args, os, hargs, hos, rfl⟩
    · rw [Action.branch, valuesOf_append hargs.length_eq]
      exact hbranch

/-! ### Derived atoms -/

theorem HasSchemas.isClosed_splitConditions (h : t.HasSchemas .withoutUniversals) :
    t.splitConditions.IsClosed N X ↔ t.IsClosed N X := by
  simp only [IsClosed, Typed, objectsOf_splitConditions]
  constructor
  · intro hclosed x hx args hargs hholds
    have hscoped := h.axioms x hx
    obtain ⟨p, hp, os, hos, hbranch⟩ := (holdsWith_branches hscoped.condition.inScope.inFragment
      hscoped.condition.simplified hscoped.isRectified).mpr hholds
    have hle : x.external ≤ args.length := hargs.length_eq ▸ hscoped.external
    have hmem := hclosed (x.branch p) (mem_axioms_splitConditions.mpr ⟨x, hx, p, hp,
      fun hfalse => not_holdsWith_false (hfalse ▸ hbranch), rfl⟩) (args ++ os)
      (typedBy_append.mpr ⟨args, os, hargs, hos, rfl⟩) (by
        rw [Axiom.branch, valuesOf_append hargs.length_eq]
        exact hbranch)
    rwa [Axiom.branch, List.take_append_of_le_length hle] at hmem
  · intro hclosed x' hx' args' hargs' hholds
    obtain ⟨x, hx, p, hp, -, rfl⟩ := mem_axioms_splitConditions.mp hx'
    obtain ⟨args, os, hargs, hos, rfl⟩ := typedBy_append.mp hargs'
    have hscoped := h.axioms x hx
    have hle : x.external ≤ args.length := hargs.length_eq ▸ hscoped.external
    rw [Axiom.branch, valuesOf_append hargs.length_eq] at hholds
    rw [Axiom.branch, List.take_append_of_le_length hle]
    exact hclosed x hx args hargs ((holdsWith_branches hscoped.condition.inScope.inFragment
      hscoped.condition.simplified hscoped.isRectified).mp ⟨p, hp, os, hos, hholds⟩)

theorem HasSchemas.consequencesOf_splitConditions (h : t.HasSchemas .withoutUniversals)
    (s N : Interpretation) : t.splitConditions.consequencesOf s N = t.consequencesOf s N := by
  simp only [consequencesOf, h.isClosed_splitConditions]

/-! ### Tasks without universal quantifiers -/

/-- Another task has the same successors of each state, apart from the state itself, and the same
derived atoms follow from its axioms. -/
structure KeepsTransitions (t t' : Task) : Prop where
  successors : ∀ s name external,
    t'.successors s name external \ {s} = t.successors s name external \ {s}
  consequencesOf : ∀ s N, t'.consequencesOf s N = t.consequencesOf s N
  model : ∀ s, t'.model s = t.model s

theorem HasSchemas.keepsTransitions (h : t.HasSchemas .withoutUniversals)
    (hexternal : ∀ a ∈ t.actions, a.external ≤ a.parameters.length) :
    t.KeepsTransitions t.splitConditions where
  successors := h.successors_splitConditions hexternal
  consequencesOf := h.consequencesOf_splitConditions
  model s := by simp only [Task.model, h.consequencesOf_splitConditions]

theorem external_removeUniversals (h : t.IsWellScoped .full)
    (htypes : ∀ a ∈ t.actions, AreConsistent (Universal.actionVariables a))
    (hexternal : ∀ a ∈ t.actions, a.external = a.parameters.length) (names : AxiomNames)
    (hnames : names.taken = t.predicates.map (·.name)) :
    ∀ a ∈ (t.removeUniversals names).1.actions, a.external ≤ a.parameters.length := by
  obtain ⟨new, hnew⟩ := removeUniversals_keepsMeaning h htypes hnames
  intro a' ha'
  obtain ⟨a, ha, hkeeps⟩ := exists_of_mem_forall₂_right (hnew fun _ => []).actions ha'
  rw [hkeeps.unchanged]
  exact (hexternal a ha).le

theorem actions_deriveGoal (t : Task) (names : AxiomNames) :
    (t.deriveGoal names).actions = t.actions := by
  rw [deriveGoal]
  split
  · rfl
  · rfl

/-- Splitting a condition gives conjunctions of literals one of which is true for some values of its
variables whenever the condition is. The one exception is the condition that is false, whose only
copy is itself; such a copy is removed with the schemas that can never be applied. So splitting the
conditions of a task that has no universal quantifiers any more, whether its goal was replaced or
not, keeps its transition system. -/
theorem splitConditions_keeps_transitions :
    (∀ c : Condition, c.hasUniversalPart = Bool.false → c.IsSimplified → c.IsRectified →
      ((∀ p ∈ c.branches, p.2.conjunction?.isSome) ∨
        c = .false ∧ c.branches = [([], .false)]) ∧
      ∀ objects s values, c.Holds objects s values ↔ ∃ p ∈ c.branches, ∃ os,
        TypedBy objects p.1 os ∧ p.2.Holds objects s (valuesOf p.1 os ++ values)) ∧
    ∀ domain problem t warnings, Task.elaborate domain problem = (.ok t, warnings) →
      ∀ r names, t.removeUniversals { taken := t.predicates.map (·.name) } = (r, names) →
        t.normalizeConditions { taken := t.predicates.map (·.name) } =
          (r.deriveGoal names).splitConditions ∧
        r.KeepsTransitions r.splitConditions ∧
        (r.deriveGoal names).KeepsTransitions (r.deriveGoal names).splitConditions := by
  constructor
  · intro c huniversal hsimplified hrectified
    have hfragment := inFragment_withoutUniversals huniversal
    refine ⟨?_, fun objects s values => (holds_branches hfragment hsimplified hrectified).symm⟩
    by_cases hfalse : c = .false
    · subst hfalse
      exact .inr ⟨rfl, branches_of_isConstant rfl⟩
    · exact .inl fun p hp => isSome_conjunction?_of_mem_branches hfragment hsimplified hfalse hp
  · intro domain problem t warnings ht r names hr
    obtain ⟨hscoped, htypes⟩ := elaborate_isWellScoped ht
    obtain ⟨hremoved, hnames⟩ := isWellScoped_removeUniversals hscoped
      { taken := t.predicates.map (·.name) } rfl
    have hexternal := external_removeUniversals hscoped htypes (elaborate_external ht)
      { taken := t.predicates.map (·.name) } rfl
    rw [hr] at hremoved hnames hexternal
    refine ⟨by rw [normalizeConditions_eq, hr], hremoved.toHasSchemas.keepsTransitions hexternal,
      (deriveGoal_spec hremoved hnames).2.1.keepsTransitions ?_⟩
    rw [actions_deriveGoal]
    exact hexternal

end Task

section Example

private def factOf (name : String) (args : List String) : Condition :=
  .literal (Atom.named name args).positive

/-- Two quantifiers in a conjunction, one of them above a disjunction. -/
private def graspable : Condition := .and [
  .exists [⟨"?x", "block"⟩] (.or [factOf "on" ["?x", "?y"], factOf "clear" ["?x"]]),
  .exists [⟨"?z", "block"⟩] (factOf "clear" ["?z"])]

private theorem isSimplified_graspable : graspable.IsSimplified := by decide +kernel

private theorem isRectified_graspable : graspable.IsRectified where
  nodup := by simp [graspable, factOf]
  bound := by simp [graspable, factOf, Atom.named, Atom.positive]

private def token (name : String) : Sexpr := .atom ⟨name, none⟩

private def tokens (es : List Sexpr) : Sexpr := .list es default

private def block (name : String) : Pddl.TypedSymbol := ⟨⟨name, none⟩, [⟨"block", none⟩]⟩

/-- A block can be lifted if it is light or lies on another one. -/
private def lifting : Pddl.Domain where
  name := ⟨"lifting", none⟩
  types := [⟨⟨"block", none⟩, []⟩]
  predicates := [
    ⟨⟨"on", none⟩, [block "?a", block "?b"], default⟩,
    ⟨⟨"light", none⟩, [block "?a"], default⟩,
    ⟨⟨"held", none⟩, [block "?a"], default⟩]
  actions := [{
    name := ⟨"lift", none⟩
    parameters := [block "?a"]
    precondition := some (tokens [token "or", tokens [token "light", token "?a"],
      tokens [token "exists", tokens [token "?b", token "-", token "block"],
        tokens [token "on", token "?a", token "?b"]]])
    effect := some (tokens [token "held", token "?a"]) }]

private def liftOne : Pddl.Problem where
  name := ⟨"lift-one", none⟩
  domainName := ⟨"lifting", none⟩
  objects := [block "b"]
  goal := some (tokens [token "held", token "b"])

/-- The quantifiers of the condition are merged once for each of its two alternatives, and the
action is split in two, one of which has a further parameter. -/
theorem lifting_keeps_transitions :
    (graspable.hasUniversalPart = Bool.false ∧ graspable.IsSimplified ∧ graspable.IsRectified ∧
      graspable.branches.map (·.1.map (·.name)) = [["?z", "?x"], ["?z", "?x"]] ∧
      (∀ p ∈ graspable.branches, p.2.conjunction?.isSome) ∧
      ∀ objects s values, graspable.Holds objects s values ↔ ∃ p ∈ graspable.branches, ∃ os,
        TypedBy objects p.1 os ∧ p.2.Holds objects s (valuesOf p.1 os ++ values)) ∧
    ∃ t, Task.elaborate lifting liftOne = (.ok t, []) ∧
      ∃ r names, t.removeUniversals { taken := t.predicates.map (·.name) } = (r, names) ∧
        r.splitConditions.actions.map (·.parameters.map (·.name)) = [["?a"], ["?a", "?b"]] ∧
        r.KeepsTransitions r.splitConditions := by
  have huniversal : graspable.hasUniversalPart = Bool.false := by decide +kernel
  obtain ⟨hbodies, hholds⟩ := Task.splitConditions_keeps_transitions.1 graspable huniversal
    isSimplified_graspable isRectified_graspable
  refine ⟨⟨huniversal, isSimplified_graspable, isRectified_graspable, by decide +kernel,
    hbodies.resolve_right nofun, hholds⟩, ?_⟩
  obtain ⟨t, ht⟩ : ∃ t, Task.elaborate lifting liftOne = (.ok t, []) :=
    Task.exists_elaborate (by decide +kernel) (by decide +kernel)
  have hactions : ((Task.elaborate lifting liftOne).1.toOption.map fun t =>
      (t.removeUniversals { taken := t.predicates.map (·.name) }).1.splitConditions.actions.map
        (·.parameters.map (·.name))) = some [["?a"], ["?a", "?b"]] := by
    decide +kernel
  rw [ht] at hactions
  exact ⟨t, ht, _, _, rfl, Option.some.inj hactions,
    (Task.splitConditions_keeps_transitions.2 lifting liftOne t [] ht _ _ rfl).2.1⟩

end Example

end FinitePlanning
