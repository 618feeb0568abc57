import FinitePlanning.Condition.Traversal
import FinitePlanning.Task.Declarations

/-!
Elaboration of formulas: names are resolved, bound variables are renamed apart, and negations are
pushed down to the atoms. What is still to be read is kept on a stack, so that the depth of a formula
is not bounded by the call stack.
-/

namespace FinitePlanning

open Pddl (TypedSymbol)

/-- The variables in scope with their names in the task, innermost first. -/
abbrev Scope := List (String × String)

structure ElaborationState where
  names : VariableNames := {}
  /-- Types whose name is that of a predicate, as far as this was reported. -/
  shadowed : List String := []
  /-- Warnings, newest first. -/
  warnings : List String := []

abbrev Elaboration := ExceptT Message (StateM ElaborationState)

namespace Elaboration

def warn (text : String) : Elaboration Unit :=
  modify fun s => { s with warnings := text :: s.warnings }

/-- Adds the place of a symbol to an error. -/
def withInfo {α : Type} (act : Elaboration α) (symbol : Symbol) (label : String) : Elaboration α :=
  ExceptT.adapt (·.info symbol label) act

/-- Reserves the name of a variable. Yields the name that stands for it, which is a fresh one if it
was taken and may be replaced. -/
def declareVariable (name : String) (rename : Bool) : Elaboration String := do
  let s ← get
  let (free, names) := s.names.reserve name
  let (name, names) := if rename && !free then names.fresh name else (name, names)
  set { s with names }
  return name

/-- Declares variables one after the other. Yields the parameters and the scope within. -/
def bind (types : TypeHierarchy) (rename : Bool) (seen : List String) (scope : Scope) :
    List TypedSymbol → Elaboration (List Parameter × Scope)
  | [] => return ([], scope)
  | s :: rest => do
    unless s.symbol.isVariable do
      throw (.invalid s.symbol "Expected a variable")
    if s.symbol.name ∈ seen then
      throw (.invalid s.symbol "Variable declared twice")
    let type ← (Declarations.singleType types s : Result String)
    let name ← declareVariable s.symbol.name rename
    let (parameters, inner) ←
      bind types rename (s.symbol.name :: seen) ((s.symbol.name, name) :: scope) rest
    return (⟨name, type⟩ :: parameters, inner)

/-- The predicate of an atom. The name of a type is a predicate with one argument, unless there is a
predicate of the same name. -/
def predicate (d : Declarations) (head : Symbol) (arity : Nat) : Elaboration Predicate := do
  let (predicate, expected) ←
    if head.name = "=" then pure (Predicate.equal, 2)
    else match d.predicates.lookup head.name with
      | some expected => do
        let s ← get
        if d.types.contains head.name && head.name ∉ s.shadowed then
          set { s with shadowed := head.name :: s.shadowed }
          warn ("Predicate `" ++ head.name
            ++ "` has the same name as a type, the predicate is used in formulas")
        pure (Predicate.named head.name, expected)
      | none =>
        if d.types.contains head.name then pure (Predicate.type head.name, 1)
        else throw (.invalid head "Unknown predicate")
  if arity = expected then return predicate
  throw (.invalid head ("Expected " ++ toString expected ++ " arguments but got " ++ toString arity))

/-- A variable in scope or a declared object. -/
def term (d : Declarations) (scope : Scope) (e : Sexpr) : Result String :=
  match e.atom? with
  | none => throw (.invalid e "Expected a variable or an object")
  | some symbol =>
    if symbol.isVariable then
      match scope.lookup symbol.name with
      | some name => return name
      | none => throw (.invalid symbol "Unbound variable")
    else if symbol.name ∈ d.objects then return symbol.name
    else throw (.invalid symbol "Unknown object")

/-- The head of a list and the elements after it. -/
def headed (e : Sexpr) (complaint : String) : Result (Symbol × List Sexpr) :=
  match e.cursor? with
  | none => throw (.invalid e complaint)
  | some cursor => ListReader.runOn cursor do
    return (← Cursor.popAtom, ← ListReader.remaining)

def atom (d : Declarations) (scope : Scope) (e : Sexpr) : Elaboration Atom := do
  let (head, args) ← (headed e "Expected an atom" : Result _)
  let args ← (args.mapM (term d scope) : Result _)
  return ⟨← predicate d head args.length, args⟩

/-- Keywords of compound conditions. -/
inductive Connective where
  | and
  | or
  | not
  | imply
  | forall
  | exists
deriving DecidableEq, Repr

def Connective.ofKeyword? : String → Option Connective
  | "and" => some .and
  | "or" => some .or
  | "not" => some .not
  | "imply" => some .imply
  | "forall" => some .forall
  | "exists" => some .exists
  | _ => none

/-- Reads the variables of a quantifier. -/
def quantified (d : Declarations) (scope : Scope) (vars : Sexpr) :
    Elaboration (List Parameter × Scope) :=
  match vars.cursor? with
  | none => throw (.invalid vars "Expected a list of variables")
  | some cursor => do
    let symbols ← (ListReader.runOn cursor Pddl.typedSymbols : Result _)
    bind d.types true [] scope symbols

/-- What remains to be done: read a formula or its negation, or build a compound condition from the
ones that were read last. -/
inductive Todo where
  | enter (e : Sexpr) (negated : Bool) (scope : Scope)
  | exit (shell : Condition.Shell) (children : Nat)

/-- The last of the conditions that were read. -/
def single (cs : List Condition) : Elaboration Condition :=
  match cs.getLast? with
  | some c => return c
  | none => throw (.error "Malformed condition")

/-- The compound condition with the given parts. -/
def build (parts : List Condition) : Condition.Shell → Elaboration Condition
  | .and => return .and parts
  | .or => return .or parts
  | .forall ps => return .forall ps (← single parts)
  | .exists ps => return .exists ps (← single parts)

def junctionShell (conjunctive : Bool) : Condition.Shell :=
  if conjunctive then .and else .or

def quantifierShell (universal : Bool) (ps : List Parameter) : Condition.Shell :=
  if universal then .forall ps else .exists ps

/-- The stack on which the formulas of a list are read before their junction is built. -/
def openJunction (conjunctive negated : Bool) (scope : Scope) (es : List Sexpr)
    (stack : List Todo) : List Todo :=
  es.map (.enter · negated scope) ++ .exit (junctionShell conjunctive) es.length :: stack

def Todo.weight : Todo → Nat
  | .enter e _ _ => 2 * e.size
  | .exit .. => 1

def weight (stack : List Todo) : Nat :=
  total (stack.map Todo.weight)

theorem weight_cons (todo : Todo) (stack : List Todo) :
    weight (todo :: stack) = todo.weight + weight stack :=
  rfl

theorem weight_openJunction (conjunctive negated : Bool) (scope : Scope) (es : List Sexpr)
    (stack : List Todo) : weight (openJunction conjunctive negated scope es stack) =
      2 * Sexpr.sizeAll es + 1 + weight stack := by
  have hparts : weight (es.map (.enter · negated scope)) = 2 * Sexpr.sizeAll es := by
    induction es with
    | nil => rfl
    | cons e es ih => rw [List.map_cons, weight_cons, ih, Todo.weight, Sexpr.sizeAll, Nat.mul_add]
  rw [Nat.add_assoc, ← hparts]
  simp only [weight, openJunction, List.map_append, total_append, List.map_cons, total_cons,
    Todo.weight]

/-- Works off a stack: conditions are read into negation normal form. Those that are finished are
kept last first. -/
def readAll (d : Declarations) : List Todo → List Condition → Elaboration (List Condition)
  | [], done => return done
  | .exit shell n :: stack, done => do
    readAll d stack ((← build (done.take n).reverse shell) :: done.drop n)
  | .enter (.atom symbol) _ _ :: _, _ => throw (.invalid (Sexpr.atom symbol) "Expected a condition")
  | .enter (.list [] _) negated _ :: stack, done =>
    readAll d stack ((if negated then .false else .true) :: done)
  | .enter (.list (.list es place :: _) _) _ _ :: _, _ =>
    throw (.invalid (Sexpr.list es place) "Expected an atom")
  | .enter (.list (.atom head :: args) span) negated scope :: stack, done =>
    let whole := Sexpr.list (.atom head :: args) span
    match Connective.ofKeyword? head.name with
    | none => do readAll d stack (.literal ⟨← atom d scope whole, negated⟩ :: done)
    | some .and => readAll d (openJunction (!negated) negated scope args stack) done
    | some .or => readAll d (openJunction negated negated scope args stack) done
    | some .not =>
      match args with
      | [arg] => readAll d (.enter arg (!negated) scope :: stack) done
      | _ => throw (.invalid whole "`not` expects exactly one argument")
    | some .imply =>
      match args with
      | [premise, conclusion] =>
        -- the negation of `a -> b` is the conjunction of `a` and the negation of `b`
        readAll d (.enter premise (!negated) scope :: .enter conclusion negated scope ::
          .exit (junctionShell negated) 2 :: stack) done
      | _ => throw (.invalid whole "`imply` expects exactly two arguments")
    | some .forall =>
      match args with
      | [vars, body] => do
        let (parameters, inner) ← quantified d scope vars
        let shell := quantifierShell (!negated) parameters
        readAll d (.enter body negated inner :: .exit shell 1 :: stack) done
      | _ => throw (.invalid whole "Expected a list of variables and a condition")
    | some .exists =>
      match args with
      | [vars, body] => do
        let (parameters, inner) ← quantified d scope vars
        let shell := quantifierShell negated parameters
        readAll d (.enter body negated inner :: .exit shell 1 :: stack) done
      | _ => throw (.invalid whole "Expected a list of variables and a condition")
termination_by stack => weight stack
decreasing_by
  all_goals simp only [weight_cons, weight_openJunction, Todo.weight, Sexpr.size, Sexpr.sizeAll]
  all_goals omega

/-- Reads a condition, or the negation of it, into negation normal form. -/
def formula (d : Declarations) (scope : Scope) (negated : Bool) (e : Sexpr) :
    Elaboration Condition := do
  single (← readAll d [.enter e negated scope] []).reverse

/-- Reads a condition into simplified negation normal form. -/
def condition (d : Declarations) (scope : Scope) (e : Sexpr) : Elaboration Condition :=
  return (← formula d scope false e).simplified

end Elaboration
end FinitePlanning
