import FinitePlanning.Proofs.Semantics.Formula
import FinitePlanning.Proofs.Semantics.Lifted
import FinitePlanning.Task.EffectReader

/-!
The meaning of effects as they are written: which literals an effect brings about, given what the
predicates and types mean and the values of the free variables. The premise of a conditional effect
is read as a formula in which a quantifier counts as its body if the connectives alone decide this
body. Of a list of single effects, each instance whose condition is true brings about its literal.
-/

namespace FinitePlanning
namespace Sexpr

open Elaboration (Connective EffectKeyword)

mutual

/-- Whether the connectives of a formula alone give it a truth value. -/
@[simp] def IsConstantly : Bool → Sexpr → Prop
  | _, .atom _ => False
  | v, .list [] _ => v = true
  | _, .list (.list .. :: _) _ => False
  | v, .list (.atom head :: args) _ =>
    match Connective.ofKeyword? head.name with
    | none => False
    | some .and => if v = true then AllConstantly v args else SomeConstantly v args
    | some .or => if v = false then AllConstantly v args else SomeConstantly v args
    | some .not =>
      match args with
      | [arg] => IsConstantly (!v) arg
      | _ => False
    | some .imply =>
      match args with
      | [premise, conclusion] =>
        if v = false then IsConstantly (!v) premise ∧ IsConstantly v conclusion
        else IsConstantly (!v) premise ∨ IsConstantly v conclusion
      | _ => False
    | some .forall | some .exists =>
      match args with
      | [_, body] => IsConstantly v body
      | _ => False

def AllConstantly : Bool → List Sexpr → Prop
  | _, [] => True
  | v, e :: rest => IsConstantly v e ∧ AllConstantly v rest

def SomeConstantly : Bool → List Sexpr → Prop
  | _, [] => False
  | v, e :: rest => IsConstantly v e ∨ SomeConstantly v rest

end

mutual

/-- Whether a premise is true. -/
@[simp] def IsGranted (d : Declarations) (objects : String → List String) (s : Interpretation) :
    Environment → Sexpr → Prop
  | _, .atom _ => False
  | _, .list [] _ => True
  | _, .list (.list .. :: _) _ => False
  | env, .list (.atom head :: args) _ =>
    match Connective.ofKeyword? head.name with
    | none => ⟨d.denotes head.name, args.map (value env)⟩ ∈ s
    | some .and => AllGranted d objects s env args
    | some .or => SomeGranted d objects s env args
    | some .not =>
      match args with
      | [arg] => ¬ IsGranted d objects s env arg
      | _ => False
    | some .imply =>
      match args with
      | [premise, conclusion] =>
        IsGranted d objects s env premise → IsGranted d objects s env conclusion
      | _ => False
    | some .forall =>
      match args with
      | [vars, body] => ¬ body.IsConstantly false ∧ ∀ os, RangeOver objects vars.boundNames os →
        IsGranted d objects s (env.update (vars.boundNames.map (·.1)) os) body
      | _ => False
    | some .exists =>
      match args with
      | [vars, body] => body.IsConstantly true ∨ ∃ os, RangeOver objects vars.boundNames os ∧
        IsGranted d objects s (env.update (vars.boundNames.map (·.1)) os) body
      | _ => False

def AllGranted (d : Declarations) (objects : String → List String) (s : Interpretation) :
    Environment → List Sexpr → Prop
  | _, [] => True
  | env, e :: rest => IsGranted d objects s env e ∧ AllGranted d objects s env rest

def SomeGranted (d : Declarations) (objects : String → List String) (s : Interpretation) :
    Environment → List Sexpr → Prop
  | _, [] => False
  | env, e :: rest => IsGranted d objects s env e ∨ SomeGranted d objects s env rest

end

mutual

/-- Whether an effect brings about a literal. -/
@[simp] def Does (d : Declarations) (objects : String → List String) (s : Interpretation) (l : Literal) :
    Environment → Sexpr → Prop
  | _, .atom _ => False
  | _, .list [] _ => False
  | _, .list (.list .. :: _) _ => False
  | env, .list (.atom head :: args) _ =>
    match EffectKeyword.ofKeyword? head.name with
    | none => l = Atom.positive ⟨d.denotes head.name, args.map (value env)⟩
    | some .not =>
      match args with
      | [.list (.atom head :: args) _] =>
        l = Atom.negative ⟨d.denotes head.name, args.map (value env)⟩
      | _ => False
    | some .and => SomeDoes d objects s l env args
    | some .forall =>
      match args with
      | [vars, body] => ∃ os, RangeOver objects vars.boundNames os ∧
        Does d objects s l (env.update (vars.boundNames.map (·.1)) os) body
      | _ => False
    | some .when =>
      match args with
      | [premise, body] => premise.IsGranted d objects s env ∧ Does d objects s l env body
      | _ => False
    | some .increase => False

def SomeDoes (d : Declarations) (objects : String → List String) (s : Interpretation)
    (l : Literal) : Environment → List Sexpr → Prop
  | _, [] => False
  | env, e :: rest => Does d objects s l env e ∨ SomeDoes d objects s l env rest

end

/-- What can enclose an effect: variables that a quantifier declares, or a premise. -/
inductive Encloser where
  | variables (names : List (String × List String))
  | premise (e : Sexpr)

/-- A quantifier that declares no variables encloses nothing. -/
def Encloser.IsVoid : Encloser → Prop
  | .variables names => names = []
  | .premise _ => False

mutual

/-- What encloses each increase of the costs in an effect, from the outside to the inside. -/
@[simp] def increases (outer : List Encloser) : Sexpr → List (List Encloser)
  | .atom _ => []
  | .list [] _ => []
  | .list (.list .. :: _) _ => []
  | .list (.atom head :: args) _ =>
    match EffectKeyword.ofKeyword? head.name with
    | none | some .not => []
    | some .and => increasesOfEach outer args
    | some .forall =>
      match args with
      | [vars, body] => increases (outer ++ [.variables vars.boundNames]) body
      | _ => []
    | some .when =>
      match args with
      | [premise, body] => increases (outer ++ [.premise premise]) body
      | _ => []
    | some .increase => [outer]

def increasesOfEach (outer : List Encloser) : List Sexpr → List (List Encloser)
  | [] => []
  | e :: rest => increases outer e ++ increasesOfEach outer rest

end

variable {d : Declarations} {objects : String → List String} {s : Interpretation}
  {env : Environment} {l : Literal} {outer : List Encloser} {v : Bool} {es : List Sexpr}

theorem allConstantly_iff : AllConstantly v es ↔ ∀ e ∈ es, e.IsConstantly v := by
  induction es with
  | nil => simp [AllConstantly]
  | cons e es ih => rw [AllConstantly, ih, List.forall_mem_cons]

theorem someConstantly_iff : SomeConstantly v es ↔ ∃ e ∈ es, e.IsConstantly v := by
  induction es with
  | nil => simp [SomeConstantly]
  | cons e es ih => rw [SomeConstantly, ih, List.exists_mem_cons_iff]

theorem allGranted_iff :
    AllGranted d objects s env es ↔ ∀ e ∈ es, e.IsGranted d objects s env := by
  induction es with
  | nil => simp [AllGranted]
  | cons e es ih => rw [AllGranted, ih, List.forall_mem_cons]

theorem someGranted_iff :
    SomeGranted d objects s env es ↔ ∃ e ∈ es, e.IsGranted d objects s env := by
  induction es with
  | nil => simp [SomeGranted]
  | cons e es ih => rw [SomeGranted, ih, List.exists_mem_cons_iff]

theorem someDoes_iff : SomeDoes d objects s l env es ↔ ∃ e ∈ es, e.Does d objects s l env := by
  induction es with
  | nil => simp [SomeDoes]
  | cons e es ih => rw [SomeDoes, ih, List.exists_mem_cons_iff]

theorem increasesOfEach_eq : increasesOfEach outer es = es.flatMap (increases outer) := by
  induction es with
  | nil => rfl
  | cons e es ih => rw [increasesOfEach, ih, List.flatMap_cons]

section Formulas

variable {head : Symbol} {args : List Sexpr} {span : Span} {e e' vars body : Sexpr}

theorem isConstantly_nil : (Sexpr.list [] span).IsConstantly v ↔ v = true := by
  rw [IsConstantly.eq_def]

theorem not_isConstantly_atom (h : Connective.ofKeyword? head.name = none) :
    ¬ (Sexpr.list (.atom head :: args) span).IsConstantly v := by
  rw [IsConstantly.eq_def]
  simp only [h, not_false_eq_true]

theorem isConstantly_and (h : Connective.ofKeyword? head.name = some .and) :
    (Sexpr.list (.atom head :: args) span).IsConstantly v ↔
      if v = true then ∀ e ∈ args, e.IsConstantly v else ∃ e ∈ args, e.IsConstantly v := by
  rw [IsConstantly.eq_def]
  simp only [h, allConstantly_iff, someConstantly_iff]

theorem isConstantly_or (h : Connective.ofKeyword? head.name = some .or) :
    (Sexpr.list (.atom head :: args) span).IsConstantly v ↔
      if v = false then ∀ e ∈ args, e.IsConstantly v else ∃ e ∈ args, e.IsConstantly v := by
  rw [IsConstantly.eq_def]
  simp only [h, allConstantly_iff, someConstantly_iff]

theorem isConstantly_not (h : Connective.ofKeyword? head.name = some .not) :
    (Sexpr.list [.atom head, e] span).IsConstantly v ↔ e.IsConstantly (!v) := by
  rw [IsConstantly.eq_def]
  simp only [h]

theorem isConstantly_imply (h : Connective.ofKeyword? head.name = some .imply) :
    (Sexpr.list [.atom head, e, e'] span).IsConstantly v ↔
      if v = false then e.IsConstantly (!v) ∧ e'.IsConstantly v
      else e.IsConstantly (!v) ∨ e'.IsConstantly v := by
  rw [IsConstantly.eq_def]
  simp only [h]

theorem isConstantly_forall (h : Connective.ofKeyword? head.name = some .forall) :
    (Sexpr.list [.atom head, vars, body] span).IsConstantly v ↔ body.IsConstantly v := by
  rw [IsConstantly.eq_def]
  simp only [h]

theorem isConstantly_exists (h : Connective.ofKeyword? head.name = some .exists) :
    (Sexpr.list [.atom head, vars, body] span).IsConstantly v ↔ body.IsConstantly v := by
  rw [IsConstantly.eq_def]
  simp only [h]

theorem isGranted_atom (h : Connective.ofKeyword? head.name = none) :
    (Sexpr.list (.atom head :: args) span).IsGranted d objects s env ↔
      ⟨d.denotes head.name, args.map (value env)⟩ ∈ s := by
  rw [IsGranted.eq_def]
  simp only [h]

theorem isGranted_and (h : Connective.ofKeyword? head.name = some .and) :
    (Sexpr.list (.atom head :: args) span).IsGranted d objects s env ↔
      ∀ e ∈ args, e.IsGranted d objects s env := by
  rw [IsGranted.eq_def]
  simp only [h, allGranted_iff]

theorem isGranted_or (h : Connective.ofKeyword? head.name = some .or) :
    (Sexpr.list (.atom head :: args) span).IsGranted d objects s env ↔
      ∃ e ∈ args, e.IsGranted d objects s env := by
  rw [IsGranted.eq_def]
  simp only [h, someGranted_iff]

theorem isGranted_not (h : Connective.ofKeyword? head.name = some .not) :
    (Sexpr.list [.atom head, e] span).IsGranted d objects s env ↔
      ¬ e.IsGranted d objects s env := by
  rw [IsGranted.eq_def]
  simp only [h]

theorem isGranted_imply (h : Connective.ofKeyword? head.name = some .imply) :
    (Sexpr.list [.atom head, e, e'] span).IsGranted d objects s env ↔
      (e.IsGranted d objects s env → e'.IsGranted d objects s env) := by
  rw [IsGranted.eq_def]
  simp only [h]

theorem isGranted_forall (h : Connective.ofKeyword? head.name = some .forall) :
    (Sexpr.list [.atom head, vars, body] span).IsGranted d objects s env ↔
      ¬ body.IsConstantly false ∧ ∀ os, RangeOver objects vars.boundNames os →
        body.IsGranted d objects s (env.update (vars.boundNames.map (·.1)) os) := by
  rw [IsGranted.eq_def]
  simp only [h]

theorem isGranted_exists (h : Connective.ofKeyword? head.name = some .exists) :
    (Sexpr.list [.atom head, vars, body] span).IsGranted d objects s env ↔
      body.IsConstantly true ∨ ∃ os, RangeOver objects vars.boundNames os ∧
        body.IsGranted d objects s (env.update (vars.boundNames.map (·.1)) os) := by
  rw [IsGranted.eq_def]
  simp only [h]

end Formulas

section Effects

variable {head predicate : Symbol} {args : List Sexpr} {span place : Span}
  {premise vars body : Sexpr}

theorem does_add (h : EffectKeyword.ofKeyword? head.name = none) :
    (Sexpr.list (.atom head :: args) span).Does d objects s l env ↔
      l = Atom.positive ⟨d.denotes head.name, args.map (value env)⟩ := by
  rw [Does.eq_def]
  simp only [h]

theorem does_delete (h : EffectKeyword.ofKeyword? head.name = some .not) :
    (Sexpr.list [.atom head, .list (.atom predicate :: args) place] span).Does d objects s l env ↔
      l = Atom.negative ⟨d.denotes predicate.name, args.map (value env)⟩ := by
  rw [Does.eq_def]
  simp only [h]

theorem does_and (h : EffectKeyword.ofKeyword? head.name = some .and) :
    (Sexpr.list (.atom head :: args) span).Does d objects s l env ↔
      ∃ e ∈ args, e.Does d objects s l env := by
  rw [Does.eq_def]
  simp only [h, someDoes_iff]

theorem does_forall (h : EffectKeyword.ofKeyword? head.name = some .forall) :
    (Sexpr.list [.atom head, vars, body] span).Does d objects s l env ↔
      ∃ os, RangeOver objects vars.boundNames os ∧
        body.Does d objects s l (env.update (vars.boundNames.map (·.1)) os) := by
  rw [Does.eq_def]
  simp only [h]

theorem does_when (h : EffectKeyword.ofKeyword? head.name = some .when) :
    (Sexpr.list [.atom head, premise, body] span).Does d objects s l env ↔
      premise.IsGranted d objects s env ∧ body.Does d objects s l env := by
  rw [Does.eq_def]
  simp only [h]

theorem not_does_increase (h : EffectKeyword.ofKeyword? head.name = some .increase) :
    ¬ (Sexpr.list (.atom head :: args) span).Does d objects s l env := by
  rw [Does.eq_def]
  simp only [h, not_false_eq_true]

theorem increases_nil : (Sexpr.list [] span).increases outer = [] := by
  rw [increases.eq_def]

theorem increases_add (h : EffectKeyword.ofKeyword? head.name = none) :
    (Sexpr.list (.atom head :: args) span).increases outer = [] := by
  rw [increases.eq_def]
  simp only [h]

theorem increases_delete (h : EffectKeyword.ofKeyword? head.name = some .not) :
    (Sexpr.list (.atom head :: args) span).increases outer = [] := by
  rw [increases.eq_def]
  simp only [h]

theorem increases_and (h : EffectKeyword.ofKeyword? head.name = some .and) :
    (Sexpr.list (.atom head :: args) span).increases outer =
      args.flatMap (increases outer) := by
  rw [increases.eq_def]
  simp only [h, increasesOfEach_eq]

theorem increases_forall (h : EffectKeyword.ofKeyword? head.name = some .forall) :
    (Sexpr.list [.atom head, vars, body] span).increases outer =
      body.increases (outer ++ [.variables vars.boundNames]) := by
  rw [increases.eq_def]
  simp only [h]

theorem increases_when (h : EffectKeyword.ofKeyword? head.name = some .when) :
    (Sexpr.list [.atom head, premise, body] span).increases outer =
      body.increases (outer ++ [.premise premise]) := by
  rw [increases.eq_def]
  simp only [h]

theorem increases_increase (h : EffectKeyword.ofKeyword? head.name = some .increase) :
    (Sexpr.list (.atom head :: args) span).increases outer = [outer] := by
  rw [increases.eq_def]
  simp only [h]

end Effects

end Sexpr

/-! ### Lists of single effects -/

open Grounding (valuesOf)

/-- An instance of an effect whose condition is true has a literal. -/
def Effect.BringsAbout (objects : String → List String) (s : Interpretation) (values : Renaming)
    (e : Effect) (l : Literal) : Prop :=
  ∃ os, TypedBy objects e.parameters os ∧
    e.condition.Holds objects s (valuesOf e.parameters os ++ values) ∧
      e.literal.rename (valuesOf e.parameters os ++ values) = l

/-- Some of the effects have an instance with a literal whose condition is true. -/
def SomeBringsAbout (objects : String → List String) (s : Interpretation) (values : Renaming)
    (es : List Effect) (l : Literal) : Prop :=
  ∃ e ∈ es, e.BringsAbout objects s values l

/-- The atoms that are added. -/
def added (does : Literal → Prop) : Set Atom :=
  {a | does a.positive}

/-- The atoms that are deleted and not added. -/
def deleted (does : Literal → Prop) : Set Atom :=
  {a | does a.negative ∧ ¬ does a.positive}

end FinitePlanning
