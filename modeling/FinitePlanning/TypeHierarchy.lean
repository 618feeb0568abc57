import FinitePlanning.Diagnostic.Message

/-!
The tree of the types of a task, with `object` at its root.
-/

namespace FinitePlanning

/-- The type of all objects. -/
def objectType : String := "object"

/-- All types, `object` first, and the parent of each of the others. -/
structure TypeHierarchy where
  types : List String
  parents : List (String × String)
deriving Repr, Inhabited

namespace TypeHierarchy

def parent? (h : TypeHierarchy) (type : String) : Option String :=
  h.parents.lookup type

def contains (h : TypeHierarchy) (type : String) : Bool :=
  type == objectType || (h.parent? type).isSome

/-- The type itself and its ancestors, at most `steps` of them above it. -/
def ancestorsWithin (h : TypeHierarchy) : Nat → String → List String
  | 0, type => [type]
  | steps + 1, type =>
    type :: match h.parent? type with
      | none => []
      | some parent => ancestorsWithin h steps parent

/-- The type itself followed by all its ancestors, up to `object`. -/
def ancestors (h : TypeHierarchy) (type : String) : List String :=
  h.ancestorsWithin h.parents.length type

/-- Whether the chain of parents of a type ends within some steps. -/
def endsWithin (h : TypeHierarchy) : Nat → String → Bool
  | 0, type => (h.parent? type).isNone
  | steps + 1, type =>
    match h.parent? type with
    | none => true
    | some parent => endsWithin h steps parent

/-- A hierarchy that is being built: the types in order, the parents found so far, newest first,
and the parents that were declared. -/
structure Draft where
  types : List Symbol
  parents : List (String × String)
  declared : List (String × Symbol)

def Draft.isPlaced (d : Draft) (type : String) : Bool :=
  (d.parents.lookup type).isSome

/-- Places a type that was not placed before below a parent. -/
def Draft.place (d : Draft) (type : Symbol) (parent : String) : Draft :=
  { d with
    types := if d.isPlaced type.name then d.types else d.types ++ [type]
    parents := (type.name, parent) :: d.parents }

/-- Adds the declaration of a type. A type without a parent is placed below `object`, and so is a
parent until it is declared itself. -/
def Draft.declare (d : Draft) (type : Symbol) (parent? : Option Symbol) : Result Draft := do
  let parent := parent?.getD { name := objectType }
  if type.name = objectType then
    if parent.name = objectType then return d
    throw (.invalid type "The `object` type cannot have a parent type")
  match d.declared.lookup type.name with
  | some previous =>
    if previous.name = parent.name then return d
    throw ((Message.invalid type "Type declared with more than one parent").info previous
      "previous parent")
  | none =>
    let d := { d.place type parent.name with declared := (type.name, parent) :: d.declared }
    if parent.name = objectType || d.isPlaced parent.name then return d
    return d.place parent objectType

/-- The hierarchy of a list of types with their declared parents. -/
def ofDeclarations (declarations : List (Symbol × Option Symbol)) : Result TypeHierarchy := do
  let start : Draft := ⟨[{ name := objectType }], [], []⟩
  let d ← declarations.foldlM (fun d (type, parent?) => d.declare type parent?) start
  let h : TypeHierarchy := ⟨d.types.map (·.name), d.parents⟩
  match d.types.find? fun type => !h.endsWithin h.parents.length type.name with
  | some type => throw (.invalid type "Cyclic type hierarchy")
  | none => return h

end TypeHierarchy
end FinitePlanning
