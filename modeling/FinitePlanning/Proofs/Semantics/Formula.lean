import FinitePlanning.Proofs.Semantics.Condition
import FinitePlanning.Task.Formula

/-!
The meaning of formulas as they are written, given what the predicates and types mean and the
values of the free variables. A variable of a quantifier hides those of the same name outside.
-/

namespace FinitePlanning

/-- The values of variables by the names that they are written with. -/
abbrev Environment := String → String

namespace Environment

def update (env : Environment) (names values : List String) : Environment :=
  fun x => ((names.zip values).lookup x).getD (env x)

theorem update_of_mem {env : Environment} {names values : List String} {x y : String}
    (hn : names.Nodup) (hlength : names.length = values.length) (h : (x, y) ∈ names.zip values) :
    env.update names values x = y := by
  have hkeys : ((names.zip values).map (·.1)).Nodup := by
    rwa [List.map_fst_zip (Nat.le_of_eq hlength)]
  rw [update, lookup_eq_some_of_nodup hkeys h]
  rfl

theorem update_of_not_mem {env : Environment} {names values : List String} {x : String}
    (h : x ∉ names) : env.update names values x = env x := by
  have hlookup : (names.zip values).lookup x = none := lookup_eq_none_iff_not_mem.mpr fun hx => by
    obtain ⟨⟨y, v⟩, hmem, rfl⟩ := List.mem_map.mp hx
    exact h (List.of_mem_zip hmem).1
  rw [update, hlookup]
  rfl

end Environment

/-- What the head of an atom denotes. A declared predicate hides a type of the same name. -/
def Declarations.denotes (d : Declarations) (head : String) : Predicate :=
  if head = "=" then .equal
  else if (d.predicates.lookup head).isSome then .named head
  else .type head

namespace Sexpr

/-- The value of a variable, or an object. -/
def value (env : Environment) (e : Sexpr) : String :=
  if isVariable e.text then env e.text else e.text

/-- The types that an annotation `t` or `(either t ...)` names. -/
def typeNames : Sexpr → List String
  | .list (_ :: types) _ => types.map text
  | e => [e.text]

/-- The types in the next annotation of a list. -/
def nextTypes : List Sexpr → List String
  | [] => []
  | e :: rest => if e.isAtom "-" then (rest.head?.map typeNames).getD [] else nextTypes rest

/-- The names in a list, each with the types in the annotation that follows it. -/
def typedNames : List Sexpr → List (String × List String)
  | [] => []
  | [e] => [(e.text, [])]
  | e :: e' :: rest =>
    if e.isAtom "-" then typedNames rest
    else (e.text, nextTypes (e' :: rest)) :: typedNames (e' :: rest)

/-- The variables that a quantifier declares. -/
def boundNames (e : Sexpr) : List (String × List String) :=
  typedNames (e.elements?.getD [])

/-- The objects of some types, or of type `object` if none is given. -/
def objectsOfTypes (objects : String → List String) (types : List String) : List String :=
  if types = [] then objects objectType else types.flatMap objects

/-- One object of its types for each variable. -/
def RangeOver (objects : String → List String) (vars : List (String × List String))
    (os : List String) : Prop :=
  List.Forall₂ (fun v o => o ∈ objectsOfTypes objects v.2) vars os

mutual

/-- Whether a formula is true. What is no formula is not. -/
def IsTrue (d : Declarations) (objects : String → List String) (s : Interpretation) :
    Environment → Sexpr → Prop
  | _, .atom _ => False
  | _, .list [] _ => True
  | _, .list (.list .. :: _) _ => False
  | env, .list (.atom head :: args) _ =>
    match Elaboration.Connective.ofKeyword? head.name with
    | none => ⟨d.denotes head.name, args.map (value env)⟩ ∈ s
    | some .and => AllTrue d objects s env args
    | some .or => SomeTrue d objects s env args
    | some .not =>
      match args with
      | [arg] => ¬ IsTrue d objects s env arg
      | _ => False
    | some .imply =>
      match args with
      | [premise, conclusion] =>
        IsTrue d objects s env premise → IsTrue d objects s env conclusion
      | _ => False
    | some .forall =>
      match args with
      | [vars, body] => ∀ os, RangeOver objects vars.boundNames os →
        IsTrue d objects s (env.update (vars.boundNames.map (·.1)) os) body
      | _ => False
    | some .exists =>
      match args with
      | [vars, body] => ∃ os, RangeOver objects vars.boundNames os ∧
        IsTrue d objects s (env.update (vars.boundNames.map (·.1)) os) body
      | _ => False

def AllTrue (d : Declarations) (objects : String → List String) (s : Interpretation) :
    Environment → List Sexpr → Prop
  | _, [] => True
  | env, e :: rest => IsTrue d objects s env e ∧ AllTrue d objects s env rest

def SomeTrue (d : Declarations) (objects : String → List String) (s : Interpretation) :
    Environment → List Sexpr → Prop
  | _, [] => False
  | env, e :: rest => IsTrue d objects s env e ∨ SomeTrue d objects s env rest

end

variable {d : Declarations} {objects : String → List String} {s : Interpretation}
  {env : Environment} {es : List Sexpr}

theorem allTrue_iff : AllTrue d objects s env es ↔ ∀ e ∈ es, e.IsTrue d objects s env := by
  induction es with
  | nil => simp [AllTrue]
  | cons e es ih => rw [AllTrue, ih, List.forall_mem_cons]

theorem someTrue_iff : SomeTrue d objects s env es ↔ ∃ e ∈ es, e.IsTrue d objects s env := by
  induction es with
  | nil => simp [SomeTrue]
  | cons e es ih => rw [SomeTrue, ih, List.exists_mem_cons_iff]

section Lists

open Elaboration (Connective)

variable {head : Symbol} {args : List Sexpr} {span : Span} {e e' vars body : Sexpr}

theorem isTrue_nil : (Sexpr.list [] span).IsTrue d objects s env :=
  trivial

theorem isTrue_atom (h : Connective.ofKeyword? head.name = none) :
    (Sexpr.list (.atom head :: args) span).IsTrue d objects s env ↔
      ⟨d.denotes head.name, args.map (value env)⟩ ∈ s := by
  rw [IsTrue.eq_def]
  simp only [h]

theorem isTrue_and (h : Connective.ofKeyword? head.name = some .and) :
    (Sexpr.list (.atom head :: args) span).IsTrue d objects s env ↔
      ∀ e ∈ args, e.IsTrue d objects s env := by
  rw [IsTrue.eq_def]
  simp only [h, allTrue_iff]

theorem isTrue_or (h : Connective.ofKeyword? head.name = some .or) :
    (Sexpr.list (.atom head :: args) span).IsTrue d objects s env ↔
      ∃ e ∈ args, e.IsTrue d objects s env := by
  rw [IsTrue.eq_def]
  simp only [h, someTrue_iff]

theorem isTrue_not (h : Connective.ofKeyword? head.name = some .not) :
    (Sexpr.list [.atom head, e] span).IsTrue d objects s env ↔ ¬ e.IsTrue d objects s env := by
  rw [IsTrue.eq_def]
  simp only [h]

theorem isTrue_imply (h : Connective.ofKeyword? head.name = some .imply) :
    (Sexpr.list [.atom head, e, e'] span).IsTrue d objects s env ↔
      (e.IsTrue d objects s env → e'.IsTrue d objects s env) := by
  rw [IsTrue.eq_def]
  simp only [h]

theorem isTrue_forall (h : Connective.ofKeyword? head.name = some .forall) :
    (Sexpr.list [.atom head, vars, body] span).IsTrue d objects s env ↔
      ∀ os, RangeOver objects vars.boundNames os →
        body.IsTrue d objects s (env.update (vars.boundNames.map (·.1)) os) := by
  rw [IsTrue.eq_def]
  simp only [h]

theorem isTrue_exists (h : Connective.ofKeyword? head.name = some .exists) :
    (Sexpr.list [.atom head, vars, body] span).IsTrue d objects s env ↔
      ∃ os, RangeOver objects vars.boundNames os ∧
        body.IsTrue d objects s (env.update (vars.boundNames.map (·.1)) os) := by
  rw [IsTrue.eq_def]
  simp only [h]

end Lists

end Sexpr
end FinitePlanning
