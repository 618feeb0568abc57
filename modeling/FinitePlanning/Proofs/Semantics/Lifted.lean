import FinitePlanning.Proofs.Semantics.Condition
import FinitePlanning.Task.NormalForm

/-!
Runs of tasks in normal form. An instance of an action gives each parameter an
object of its type. Its effects take place together, for all values of their own
parameters, and an atom that is both deleted and added is true afterwards. What
the instances of the axioms say of derived atoms holds in each state.
-/

namespace FinitePlanning
namespace Task

open Grounding (valuesOf)

variable (t : Task)

abbrev Typed (ps : List Parameter) (os : List String) : Prop := TypedBy t.objectsOf ps os

abbrev Holds (s : Interpretation) (values : Renaming) (c : Condition) : Prop :=
  c.Holds t.objectsOf s values

def Applicable (s : Interpretation) (a : Action) (args : List String) : Prop :=
  t.Typed a.parameters args ∧ t.Holds s (valuesOf a.parameters args) a.precondition

/-- An instance of an effect makes a literal true. -/
def Triggers (s : Interpretation) (a : Action) (args : List String) (l : Literal) : Prop :=
  ∃ e ∈ a.effects, ∃ os, t.Typed e.parameters os ∧
    t.Holds s (valuesOf e.parameters os ++ valuesOf a.parameters args) e.condition ∧
    e.literal.rename (valuesOf e.parameters os ++ valuesOf a.parameters args) = l

/-- What is true after an action, derived atoms being left as they are. -/
def successor (s : Interpretation) (a : Action) (args : List String) : Interpretation :=
  {b | t.Triggers s a args b.positive} ∪ {b ∈ s | ¬ t.Triggers s a args b.negative}

/-- The instance of an axiom, with the literals of its condition. -/
def axiomInstance (x : Axiom) (args : List String) : GroundAxiom where
  name := Grounding.instanceName x.name (args.take x.external)
  condition := x.condition.literals.map (·.rename (valuesOf x.parameters args))
  effect := .named x.name (args.take x.external)

def axiomInstances : Set GroundAxiom :=
  {x | ∃ a ∈ t.axioms, ∃ args, t.Typed a.parameters args ∧ x = axiomInstance a args}

/-- The state with the given values of the atoms that are not derived. -/
def complete (s : Interpretation) : Interpretation :=
  interpretation t.axiomInstances {a ∈ s | t.isDerived a = false}

def initialState : Interpretation := t.complete {a | a ∈ t.init ∨ a ∈ t.typeAtoms}

inductive Reachable : Interpretation → Prop where
  | init : Reachable t.initialState
  | step {s : Interpretation} {a : Action} {args : List String} (hs : Reachable s)
      (ha : a ∈ t.actions) (happ : t.Applicable s a args) :
      Reachable (t.complete (t.successor s a args))

def Solvable : Prop := ∃ s, t.Reachable s ∧ t.Holds s [] t.goal

/-- Only the predicate of an atom decides whether it is derived. -/
theorem isDerived_congr {a b : Atom} (h : a.predicate = b.predicate) :
    t.isDerived a = t.isDerived b := by
  simp only [isDerived, h]

theorem isDerived_effect {x : GroundAxiom} (h : x ∈ t.axiomInstances) :
    t.isDerived x.effect = true := by
  obtain ⟨a, ha, args, -, rfl⟩ := h
  simp only [axiomInstance, Atom.named, isDerived, List.any_eq_true, beq_iff_eq]
  exact ⟨a, ha, rfl⟩

theorem mem_complete_of_not_derived {s : Interpretation} {a : Atom}
    (h : t.isDerived a = false) : a ∈ t.complete s ↔ a ∈ s := by
  have hh : ¬ IsHead t.axiomInstances a := by
    rintro ⟨x, hx, rfl⟩
    rw [t.isDerived_effect hx] at h
    cases h
  rw [complete, mem_interpretation_of_not_head hh]
  exact ⟨fun h => h.1, fun ha => ⟨ha, h⟩⟩

end Task

/-- A predicate takes a number of arguments. -/
def Task.HasArity (t : Task) (p : Predicate) (n : Nat) : Prop :=
  match p with
  | .named name => ∃ q ∈ t.predicates, q.name = name ∧ q.arity = n
  | .type _ => n = 1
  | .equal => n = 2

/-- An atom over some variables: a predicate with the right number of arguments,
which are among the variables or objects of the task. -/
structure Atom.IsOver (t : Task) (vars : List String) (a : Atom) : Prop where
  arity : t.HasArity a.predicate a.args.length
  args : ∀ x ∈ a.args, (isVariable x = true → x ∈ vars) ∧
    (isVariable x = false → x ∈ t.objects.map (·.name))

/-- An atom over the objects of a task. -/
structure Atom.IsGround (t : Task) (a : Atom) : Prop where
  arity : t.HasArity a.predicate a.args.length
  args : ∀ x ∈ a.args, x ∈ t.objects.map (·.name)

/-- A conjunction of literals over some variables. -/
def Condition.IsOver (t : Task) (vars : List String) (c : Condition) : Prop :=
  ∃ ls, c.conjunction? = some ls ∧ ∀ l ∈ ls, l.atom.IsOver t vars

theorem Atom.IsOver.mono {t : Task} {vars vars' : List String} {a : Atom}
    (h : a.IsOver t vars) (hsub : vars ⊆ vars') : a.IsOver t vars' where
  arity := h.arity
  args x hx := ⟨fun hv => hsub ((h.args x hx).1 hv), (h.args x hx).2⟩

namespace Condition.IsOver

variable {t : Task} {vars : List String} {c : Condition}

theorem conjunction (h : c.IsOver t vars) : c.conjunction? = some c.literals := by
  obtain ⟨ls, hls, -⟩ := h
  rw [literals_of_conjunction hls, hls]

theorem literals (h : c.IsOver t vars) : ∀ l ∈ c.literals, l.atom.IsOver t vars := by
  obtain ⟨ls, hls, hover⟩ := h
  rwa [literals_of_conjunction hls]

theorem holds_iff (h : c.IsOver t vars) {objects : String → List String} {s : Interpretation}
    {values : Renaming} :
    c.Holds objects s values ↔ AllHold s (c.literals.map (·.rename values)) :=
  holds_iff_of_conjunction h.conjunction

end Condition.IsOver

/-- The names of parameters are different variables. -/
structure AreVariables (ps : List Parameter) : Prop where
  nodup : (ps.map (·.name)).Nodup
  isVariable : ∀ p ∈ ps, isVariable p.name = true

structure Effect.IsNormal (t : Task) (outer : List Parameter) (e : Effect) : Prop where
  parameters : AreVariables (outer ++ e.parameters)
  condition : e.condition.IsOver t ((outer ++ e.parameters).map (·.name))
  literal : e.literal.atom.IsOver t ((outer ++ e.parameters).map (·.name))
  named : ∃ name, e.literal.atom.predicate = .named name
  basic : t.isDerived e.literal.atom = false

structure Action.IsNormal (t : Task) (a : Action) : Prop where
  parameters : AreVariables a.parameters
  precondition : a.precondition.IsOver t (a.parameters.map (·.name))
  effects : ∀ e ∈ a.effects, e.IsNormal t a.parameters

structure Axiom.IsNormal (t : Task) (a : Axiom) : Prop where
  parameters : AreVariables a.parameters
  condition : a.condition.IsOver t (a.parameters.map (·.name))
  external : a.external ≤ a.parameters.length
  arity : t.HasArity (.named a.name) a.external

/-- What reading and normalizing a task gives: conditions are conjunctions of
literals over the variables in scope and the objects, and initially no derived
atom is true, and of the equalities exactly the trivial ones. -/
structure Task.IsNormal (t : Task) : Prop where
  objects : (t.objects.map (·.name)).Nodup
  predicates : (t.predicates.map (·.name)).Nodup
  init : ∀ a ∈ t.init, a.IsGround t ∧ t.isDerived a = false
  equal : ∀ args, (⟨.equal, args⟩ : Atom) ∈ t.init ↔
    ∃ o ∈ t.objects.map (·.name), args = [o, o]
  goal : t.goal.IsOver t []
  actions : ∀ a ∈ t.actions, a.IsNormal t
  axioms : ∀ a ∈ t.axioms, a.IsNormal t

section Decidable

variable (t : Task)

instance (p : Predicate) (n : Nat) : Decidable (t.HasArity p n) :=
  match p with
  | .named name => inferInstanceAs (Decidable (∃ q ∈ t.predicates, q.name = name ∧ q.arity = n))
  | .type _ => inferInstanceAs (Decidable (n = 1))
  | .equal => inferInstanceAs (Decidable (n = 2))

instance (vars : List String) (a : Atom) : Decidable (a.IsOver t vars) :=
  decidable_of_iff (t.HasArity a.predicate a.args.length ∧
    ∀ x ∈ a.args, (isVariable x = true → x ∈ vars) ∧
      (isVariable x = false → x ∈ t.objects.map (·.name)))
    ⟨fun h => ⟨h.1, h.2⟩, fun h => ⟨h.arity, h.args⟩⟩

instance (a : Atom) : Decidable (a.IsGround t) :=
  decidable_of_iff (t.HasArity a.predicate a.args.length ∧
    ∀ x ∈ a.args, x ∈ t.objects.map (·.name))
    ⟨fun h => ⟨h.1, h.2⟩, fun h => ⟨h.arity, h.args⟩⟩

instance (vars : List String) (c : Condition) : Decidable (c.IsOver t vars) :=
  decidable_of_iff (∃ ls ∈ c.conjunction?, ∀ l ∈ ls, l.atom.IsOver t vars) Iff.rfl

instance (ps : List Parameter) : Decidable (AreVariables ps) :=
  decidable_of_iff ((ps.map (·.name)).Nodup ∧ ∀ p ∈ ps, isVariable p.name = true)
    ⟨fun h => ⟨h.1, h.2⟩, fun h => ⟨h.nodup, h.isVariable⟩⟩

instance (a : Atom) : Decidable (∃ name, a.predicate = .named name) :=
  match a.predicate with
  | .named name => isTrue ⟨name, rfl⟩
  | .type _ | .equal => isFalse nofun

instance (outer : List Parameter) (e : Effect) : Decidable (e.IsNormal t outer) :=
  decidable_of_iff (AreVariables (outer ++ e.parameters) ∧
    e.condition.IsOver t ((outer ++ e.parameters).map (·.name)) ∧
    e.literal.atom.IsOver t ((outer ++ e.parameters).map (·.name)) ∧
    (∃ name, e.literal.atom.predicate = .named name) ∧ t.isDerived e.literal.atom = false)
    ⟨fun ⟨h₁, h₂, h₃, h₄, h₅⟩ => ⟨h₁, h₂, h₃, h₄, h₅⟩,
      fun h => ⟨h.parameters, h.condition, h.literal, h.named, h.basic⟩⟩

instance (a : Action) : Decidable (a.IsNormal t) :=
  decidable_of_iff (AreVariables a.parameters ∧
    a.precondition.IsOver t (a.parameters.map (·.name)) ∧
    ∀ e ∈ a.effects, e.IsNormal t a.parameters)
    ⟨fun ⟨h₁, h₂, h₃⟩ => ⟨h₁, h₂, h₃⟩, fun h => ⟨h.parameters, h.precondition, h.effects⟩⟩

end Decidable

end FinitePlanning
