import FinitePlanning.Proofs.Condition.Scope
import FinitePlanning.Proofs.Semantics.Values

/-!
Tasks on the way to their normal form. Their conditions belong to a fragment and are
simplified, and the variables that are quantified in a schema differ from each other
and from its parameters, so that all of them can become parameters.
-/

namespace FinitePlanning

theorem AreVariables.of_subperm {ps qs : List Parameter} (h : AreVariables qs)
    (hsub : ps.Subperm qs) : AreVariables ps where
  nodup := by
    obtain ⟨rs, hperm, hrs⟩ := hsub
    exact (hperm.map (·.name)).nodup_iff.mp ((hrs.map (·.name)).nodup h.nodup)
  isVariable p hp := h.isVariable p (hsub.subset hp)

/-- Variables of the same name have the same type. -/
def AreConsistent (ps : List Parameter) : Prop :=
  ∀ p ∈ ps, ∀ q ∈ ps, p.name = q.name → p = q

theorem AreVariables.areConsistent {ps : List Parameter} (h : AreVariables ps) :
    AreConsistent ps :=
  fun _ hp _ hq => List.inj_on_of_nodup_map h.nodup hp hq

theorem AreConsistent.of_subset {ps qs : List Parameter} (h : AreConsistent qs) (hsub : ps ⊆ qs) :
    AreConsistent ps :=
  fun p hp q hq => h p (hsub hp) q (hsub hq)

/-- Another task has the same objects, and maybe more predicates. -/
structure Task.IsExtendedBy (t t' : Task) : Prop where
  objects : t.objects = t'.objects
  predicates : t.predicates ⊆ t'.predicates

section

variable {t t' t'' : Task}

theorem Task.IsExtendedBy.refl (t : Task) : t.IsExtendedBy t :=
  ⟨rfl, List.Subset.refl _⟩

theorem Task.IsExtendedBy.trans (h : t.IsExtendedBy t') (h' : t'.IsExtendedBy t'') :
    t.IsExtendedBy t'' :=
  ⟨h.objects.trans h'.objects, fun _ hp => h'.predicates (h.predicates hp)⟩

theorem Task.HasArity.of_task {p : Predicate} {n : Nat} (h : t.HasArity p n)
    (ht : t.IsExtendedBy t') : t'.HasArity p n := by
  cases p with
  | named name => exact h.imp fun q hq => ⟨ht.predicates hq.1, hq.2⟩
  | type _ | equal => exact h

theorem Atom.IsOver.of_task {a : Atom} {vars : List String} (h : a.IsOver t vars)
    (ht : t.IsExtendedBy t') : a.IsOver t' vars :=
  ⟨h.arity.of_task ht, ht.objects ▸ h.args⟩

end

/-- What the conditions of schemas are before they are normal. -/
structure Condition.IsWellScoped (t : Task) (k : Fragment) (vars : List String) (c : Condition) :
    Prop where
  inScope : c.IsScoped t k vars
  simplified : c.IsSimplified

/-- An effect of an action with parameters `outer` whose precondition quantifies `inner`. -/
structure Effect.IsWellScoped (t : Task) (k : Fragment) (outer inner : List Parameter) (e : Effect) :
    Prop where
  distinct : AreVariables (outer ++ inner ++ (e.parameters ++ e.condition.quantifiedParameters))
  condition : e.condition.IsWellScoped t k ((outer ++ e.parameters).map (·.name))
  literal : e.literal.atom.IsOver t ((outer ++ e.parameters).map (·.name))
  named : ∃ name, e.literal.atom.predicate = .named name

structure Action.IsWellScoped (t : Task) (k : Fragment) (a : Action) : Prop where
  distinct : AreVariables (a.parameters ++ a.precondition.quantifiedParameters)
  precondition : a.precondition.IsWellScoped t k (a.parameters.map (·.name))
  effects : ∀ e ∈ a.effects,
    e.IsWellScoped t k a.parameters a.precondition.quantifiedParameters

structure Axiom.IsWellScoped (t : Task) (k : Fragment) (a : Axiom) : Prop where
  distinct : AreVariables (a.parameters ++ a.condition.quantifiedParameters)
  condition : a.condition.IsWellScoped t k (a.parameters.map (·.name))
  external : a.external ≤ a.parameters.length
  arity : t.HasArity (.named a.name) a.external

/-- The declared objects and predicates are different, and initially there are atoms over them, of
the equalities exactly the trivial ones. -/
structure Task.IsDeclared (t : Task) : Prop where
  objects : (t.objects.map (·.name)).Nodup
  predicates : (t.predicates.map (·.name)).Nodup
  init : ∀ a ∈ t.init, a.IsGround t
  equal : ∀ args, (⟨.equal, args⟩ : Atom) ∈ t.init ↔
    ∃ o ∈ t.objects.map (·.name), args = [o, o]

structure Task.HasSchemas (t : Task) (k : Fragment) : Prop where
  actions : ∀ a ∈ t.actions, a.IsWellScoped t k
  axioms : ∀ a ∈ t.axioms, a.IsWellScoped t k

structure Task.IsWellScoped (t : Task) (k : Fragment) : Prop
    extends t.IsDeclared, t.HasSchemas k where
  distinct : AreVariables t.goal.quantifiedParameters
  goal : t.goal.IsWellScoped t k []

variable {t t' : Task} {k : Fragment}

theorem Condition.IsWellScoped.of_task {c : Condition} {vars : List String}
    (h : c.IsWellScoped t k vars) (ht : t.IsExtendedBy t') : c.IsWellScoped t' k vars :=
  ⟨h.inScope.of_task fun _ _ ha => ha.of_task ht, h.simplified⟩

theorem Axiom.IsWellScoped.of_task {a : Axiom} (h : a.IsWellScoped t k)
    (ht : t.IsExtendedBy t') : a.IsWellScoped t' k :=
  ⟨h.distinct, h.condition.of_task ht, h.external, h.arity.of_task ht⟩

theorem Effect.IsWellScoped.distinct_condition {outer inner : List Parameter} {e : Effect}
    (h : e.IsWellScoped t k outer inner) :
    AreVariables (outer ++ e.parameters ++ e.condition.quantifiedParameters) := by
  refine h.distinct.of_subperm ?_
  rw [List.append_assoc, List.append_assoc]
  exact (List.Subperm.refl _).append (List.sublist_append_right _ _).subperm

/-! ### Bound variables -/

theorem Condition.IsScoped.isRectified {c : Condition} {ps : List Parameter}
    (h : c.IsScoped t k (ps.map (·.name))) (hps : AreVariables (ps ++ c.quantifiedParameters)) :
    c.IsRectified where
  nodup := hps.right.nodup
  bound _ hx hfree :=
    hps.disjoint ((isScoped_iff.mp h).2.2 _ hfree (hps.right.isVariable_of_mem hx)) hx

theorem Axiom.IsWellScoped.isRectified {x : Axiom} (h : x.IsWellScoped t k) :
    x.condition.IsRectified :=
  h.condition.inScope.isRectified h.distinct

theorem Action.IsWellScoped.isRectified {a : Action} (h : a.IsWellScoped t k) :
    a.precondition.IsRectified :=
  h.precondition.inScope.isRectified h.distinct

theorem Effect.IsWellScoped.isRectified {outer inner : List Parameter} {e : Effect}
    (h : e.IsWellScoped t k outer inner) : e.condition.IsRectified :=
  h.condition.inScope.isRectified h.distinct_condition

/-! ### Schemas with other conditions -/

/-- A simplified condition in a fragment, with some of the quantified variables of another one. -/
structure Condition.Refines (t : Task) (k : Fragment) (vars : List String) (c d : Condition) :
    Prop extends Condition.IsPart t k vars c d where
  simplified : d.IsSimplified

variable {k' : Fragment} {d : Condition}

theorem Effect.IsWellScoped.refine {outer inner inner' : List Parameter} {e : Effect}
    (h : e.IsWellScoped t k outer inner) (ht : t.IsExtendedBy t') (hinner : inner'.Subperm inner)
    (hd : e.condition.Refines t' k' ((outer ++ e.parameters).map (·.name)) d) :
    Effect.IsWellScoped t' k' outer inner' { e with condition := d } where
  distinct := h.distinct.of_subperm (((List.Subperm.refl outer).append hinner).append
    ((List.Subperm.refl e.parameters).append hd.quantified))
  condition := ⟨hd.inScope, hd.simplified⟩
  literal := h.literal.of_task ht
  named := h.named

theorem Action.IsWellScoped.refine {a : Action} {effects : List Effect}
    (h : a.IsWellScoped t k) (ht : t.IsExtendedBy t')
    (hd : a.precondition.Refines t' k' (a.parameters.map (·.name)) d)
    (heffects : ∀ e' ∈ effects, ∃ e ∈ a.effects, ∃ d : Condition,
      e.condition.Refines t' k' ((a.parameters ++ e.parameters).map (·.name)) d ∧
        e' = { e with condition := d }) :
    Action.IsWellScoped t' k' { a with precondition := d, effects } where
  distinct := h.distinct.of_subperm ((List.Subperm.refl a.parameters).append hd.quantified)
  precondition := ⟨hd.inScope, hd.simplified⟩
  effects := by
    intro e' he'
    obtain ⟨e, he, d, hd', rfl⟩ := heffects e' he'
    exact (h.effects e he).refine ht hd.quantified hd'

theorem Axiom.IsWellScoped.refine {a : Axiom} (h : a.IsWellScoped t k) (ht : t.IsExtendedBy t')
    (hd : a.condition.Refines t' k' (a.parameters.map (·.name)) d) :
    Axiom.IsWellScoped t' k' { a with condition := d } where
  distinct := h.distinct.of_subperm ((List.Subperm.refl a.parameters).append hd.quantified)
  condition := ⟨hd.inScope, hd.simplified⟩
  external := h.external
  arity := h.arity.of_task ht

theorem Condition.IsWellScoped.refines {c : Condition} {vars : List String}
    (h : c.IsWellScoped t k vars) (ht : t.IsExtendedBy t') : c.Refines t' k vars c :=
  ⟨⟨(h.of_task ht).inScope, .refl _⟩, h.simplified⟩

theorem Action.IsWellScoped.of_task {a : Action} (h : a.IsWellScoped t k)
    (ht : t.IsExtendedBy t') : a.IsWellScoped t' k :=
  h.refine ht (h.precondition.refines ht) fun e he =>
    ⟨e, he, e.condition, (h.effects e he).condition.refines ht, rfl⟩

theorem Condition.IsOver.mono {c : Condition} {vars vars' : List String} (h : c.IsOver t vars)
    (hsub : vars ⊆ vars') : c.IsOver t vars' := by
  obtain ⟨ls, hls, hover⟩ := h
  exact ⟨ls, hls, fun l hl => (hover l hl).mono hsub⟩

theorem Condition.IsOver.of_task {c : Condition} {vars : List String} (h : c.IsOver t vars)
    (ht : t.IsExtendedBy t') : c.IsOver t' vars := by
  obtain ⟨ls, hls, hover⟩ := h
  exact ⟨ls, hls, fun l hl => (hover l hl).of_task ht⟩

theorem Atom.IsGround.of_task {a : Atom} (h : a.IsGround t) (ht : t.IsExtendedBy t') :
    a.IsGround t' :=
  ⟨h.arity.of_task ht, ht.objects ▸ h.args⟩

end FinitePlanning
