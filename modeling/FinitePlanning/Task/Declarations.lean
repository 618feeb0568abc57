import FinitePlanning.Names
import FinitePlanning.Pddl.Domain
import FinitePlanning.Pddl.Problem
import FinitePlanning.Task.Basic
import FinitePlanning.Text.Number

/-!
The declarations that formulas refer to: types, objects, predicates and functions.
-/

namespace FinitePlanning

open Pddl (TypedSymbol)

/-- The declared symbols, predicates and functions with the number of their arguments. -/
structure Declarations where
  types : TypeHierarchy
  objects : List String
  predicates : List (String × Nat)
  functions : List (String × Nat)

namespace Declarations

/-- The parent that a type declaration gives. -/
def declaredParent (s : TypedSymbol) : Result (Symbol × Option Symbol) :=
  match s.types with
  | [] => return (s.symbol, none)
  | [parent] => return (s.symbol, some parent)
  | _ :: second :: _ =>
    throw ((Message.invalid second "unexpected second parent type").info s.symbol "for type")

def typeHierarchy (types : List TypedSymbol) : Result TypeHierarchy := do
  TypeHierarchy.ofDeclarations (← types.mapM declaredParent)

/-- The type of a symbol, which is `object` if none is given. -/
def singleType (h : TypeHierarchy) (s : TypedSymbol) : Result String :=
  match s.types with
  | [] => return objectType
  | [type] => if h.contains type.name then return type.name else throw (.invalid type "Unknown type")
  | _ :: second :: _ =>
    throw ((Message.invalid second "`either` types are not supported").info s.symbol
      "for parameter")

def parameters (h : TypeHierarchy) (symbols : List TypedSymbol) : Result (List Parameter) :=
  symbols.mapM fun s => return ⟨s.symbol.name, ← singleType h s⟩

/-- Adds the declaration of a predicate to the earlier ones, which are given with their names. -/
def addPredicate (h : TypeHierarchy) (earlier : List (Symbol × PredicateSchema))
    (p : Pddl.PredicateDeclaration) : Result (List (Symbol × PredicateSchema)) := do
  if p.name.name = "=" then
    throw (.invalid p.name "Equality is a built-in predicate")
  match earlier.find? (·.1.name == p.name.name) with
  | some (previous, _) =>
    throw ((Message.invalid p.name "Predicate declared twice").info previous
      "previous declaration")
  | none =>
    return earlier ++ [(p.name, ⟨p.name.name, ← parameters h p.parameters, false⟩)]

/-- Marks the predicate of a derived declaration. -/
def markDerived (predicates : List (Symbol × PredicateSchema)) (d : Pddl.DerivedDeclaration) :
    Result (List (Symbol × PredicateSchema)) :=
  match predicates.find? (·.1.name == d.name.name) with
  | none => throw (.invalid d.name "Derived predicate is not declared in `:predicates`")
  | some (declaration, schema) =>
    if schema.arity = d.parameters.length then
      return predicates.map fun (s, p) =>
        (s, if p.name = d.name.name then { p with derived := true } else p)
    else
      throw ((Message.invalid d.name
        ("Derived predicate expects " ++ toString schema.arity ++ " parameters")).info declaration
        "declaration")

def predicateSchemas (h : TypeHierarchy) (d : Pddl.Domain) : Result (List PredicateSchema) := do
  let declared ← d.predicates.foldlM (addPredicate h) []
  return (← d.derived.foldlM markDerived declared).map (·.2)

def functionSchemas (h : TypeHierarchy) (d : Pddl.Domain) : Result (List FunctionSchema) :=
  d.functions.mapM fun f => do
    if f.type.any (·.name != "number") then
      throw (.invalid f.name "Object fluents are not supported")
    return ⟨f.name.name, ← parameters h f.parameters⟩

/-- Adds an object to the earlier ones, which are given with their names. -/
def addObject (h : TypeHierarchy) (earlier : List (Symbol × Object)) (s : TypedSymbol) :
    Result (List (Symbol × Object)) :=
  match earlier.find? (·.1.name == s.symbol.name) with
  | some (previous, _) =>
    throw ((Message.invalid s.symbol "Object declared twice").info previous
      "previous declaration")
  | none => return earlier ++ [(s.symbol, ⟨s.symbol.name, ← singleType h s⟩)]

def objectList (h : TypeHierarchy) (symbols : List TypedSymbol) : Result (List Object) :=
  return (← symbols.foldlM (addObject h) []).map (·.2)

/-- The declarations as formulas see them. Of two functions of one name the later one counts. -/
def ofSchemas (types : TypeHierarchy) (objects : List Object) (predicates : List PredicateSchema)
    (functions : List FunctionSchema) : Declarations :=
  { types
    objects := objects.map (·.name)
    predicates := predicates.map fun p => (p.name, p.arity)
    functions := (functions.map fun f => (f.name, f.parameters.length)).reverse }

end Declarations
end FinitePlanning
