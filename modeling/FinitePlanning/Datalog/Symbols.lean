import FinitePlanning.Atom

/-!
Relations and objects of a Horn program. They are numbered in the order in which they are first
mentioned.
-/

namespace FinitePlanning
namespace Datalog

structure RelationId where
  index : Nat
deriving DecidableEq, Hashable, Repr, Inhabited

structure ObjectId where
  index : Nat
deriving DecidableEq, Hashable, Repr, Inhabited

instance : Ord RelationId := ⟨compareOn RelationId.index⟩

instance : Ord ObjectId := ⟨compareOn ObjectId.index⟩

inductive Relation where
  /-- A predicate of the task. -/
  | predicate (predicate : Predicate)
  /-- Applicability of an action over all its parameters. -/
  | action (index : Nat)
  /-- Applicability of an axiom over all its parameters. -/
  | derivation (index : Nat)
  /-- An intermediate relation of a rule that was split. -/
  | auxiliary (index : Nat)
  /-- Holds of every object. -/
  | object
  /-- Holds if the goal is reachable. -/
  | goalReachable
deriving DecidableEq, Hashable, Repr, Inhabited

namespace Relation

def isAuxiliary : Relation → Bool
  | auxiliary _ => true
  | _ => false

def text : Relation → String
  | predicate p => p.text
  | action i => "action@" ++ toString i
  | derivation i => "axiom@" ++ toString i
  | auxiliary i => "p$" ++ toString i
  | object => "@object"
  | goalReachable => "@goal-reachable"

end Relation

/-- An atom of a model. -/
structure GroundAtom where
  relation : RelationId
  args : List ObjectId
deriving DecidableEq, Hashable, Repr, Inhabited

instance : Ord GroundAtom :=
  ⟨compareLex (compareOn GroundAtom.relation) (compareOn GroundAtom.args)⟩

/-- The relations and objects that were mentioned, in order. -/
structure SymbolTable where
  relations : List Relation := []
  objects : List String := []
deriving Repr, Inhabited

namespace SymbolTable

def relation (t : SymbolTable) (id : RelationId) : Relation :=
  t.relations.getD id.index default

def object (t : SymbolTable) (id : ObjectId) : String :=
  t.objects.getD id.index default

def relationId? (t : SymbolTable) (r : Relation) : Option RelationId :=
  (t.relations.idxOf? r).map RelationId.mk

def objectId? (t : SymbolTable) (name : String) : Option ObjectId :=
  (t.objects.idxOf? name).map ObjectId.mk

/-- The number of a relation, which is entered if it is new. -/
def internRelation (r : Relation) : StateM SymbolTable RelationId := do
  let t ← get
  match t.relationId? r with
  | some id => return id
  | none =>
    set { t with relations := t.relations ++ [r] }
    return ⟨t.relations.length⟩

/-- The number of an object, which is entered if it is new. -/
def internObject (name : String) : StateM SymbolTable ObjectId := do
  let t ← get
  match t.objectId? name with
  | some id => return id
  | none =>
    set { t with objects := t.objects ++ [name] }
    return ⟨t.objects.length⟩

/-- An atom of the task, if its predicate and arguments were mentioned. -/
def groundAtom? (t : SymbolTable) (a : Atom) : Option GroundAtom := do
  let relation ← t.relationId? (.predicate a.predicate)
  return { relation, args := ← a.args.mapM t.objectId? }

def text (t : SymbolTable) (a : GroundAtom) : String :=
  (t.relation a.relation).text ++ "(" ++ ", ".intercalate (a.args.map t.object) ++ ")"

end SymbolTable
end Datalog
end FinitePlanning
