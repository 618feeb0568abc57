import FinitePlanning.Diagnostic.Message

/-!
S-expressions: atoms and lists, each with the place it was read from. The elements of a list are
read one after the other. What was read before an error stays read.
-/

namespace FinitePlanning

inductive Sexpr where
  | atom (symbol : Symbol)
  | list (elements : List Sexpr) (span : Span)
deriving Inhabited

namespace Sexpr

mutual

def text : Sexpr → String
  | .atom symbol => symbol.name
  | .list elements _ => "(" ++ textSeparated elements ++ ")"

/-- The texts of the elements of a list, separated by blanks. -/
def textSeparated : List Sexpr → String
  | [] => ""
  | [e] => text e
  | e :: rest => text e ++ " " ++ textSeparated rest

end

instance : Located Sexpr where
  span?
    | .atom symbol => symbol.origin
    | .list _ span => some span
  text := text

def atom? : Sexpr → Option Symbol
  | .atom symbol => some symbol
  | .list .. => none

def elements? : Sexpr → Option (List Sexpr)
  | .atom _ => none
  | .list elements _ => some elements

/-- Whether an expression is the atom of the given name. -/
def isAtom (name : String) : Sexpr → Bool
  | .atom symbol => symbol.name == name
  | .list .. => false

def isEmptyList : Sexpr → Bool
  | .list [] _ => true
  | _ => false

/-- The arguments of a list whose first element is the atom `head`. -/
def arguments? (head : String) : Sexpr → Option (List Sexpr)
  | .list (first :: arguments) _ => if first.isAtom head then some arguments else none
  | _ => none

mutual

/-- All nodes in preorder with their depth: the name of an atom, nothing for a list. -/
def nodes (depth : Nat) : Sexpr → List (Nat × Option String × Span)
  | .atom symbol => [(depth, some symbol.name, Located.span symbol)]
  | .list elements span => (depth, none, span) :: nodesOfAll (depth + 1) elements

def nodesOfAll (depth : Nat) : List Sexpr → List (Nat × Option String × Span)
  | [] => []
  | e :: rest => nodes depth e ++ nodesOfAll depth rest

end

mutual

/-- Number of nodes. -/
def size : Sexpr → Nat
  | .atom _ => 1
  | .list elements _ => sizeAll elements + 1

def sizeAll : List Sexpr → Nat
  | [] => 0
  | e :: rest => size e + sizeAll rest

end

/-- Reads a conjunction of items: `()`, `(and item ...)` or a single item. -/
def conjunction {α : Type} (item : Sexpr → Result α) (e : Sexpr) : Result (List α) :=
  match e.arguments? "and" with
  | some conjuncts => conjuncts.mapM item
  | none => if e.isEmptyList then pure [] else return [← item e]

end Sexpr

/-- The elements of a list that are still to be read, and the place of the whole list. -/
structure Cursor where
  remaining : List Sexpr
  span : Span
deriving Inhabited

def Sexpr.cursor? : Sexpr → Option Cursor
  | .atom _ => none
  | .list elements span => some ⟨elements, span⟩

/-- A reader of the elements of a list. -/
abbrev ListReader := ExceptT Message (StateM Cursor)

namespace ListReader

/-- Reads from a cursor and forgets what remains. -/
def runOn {α : Type} (cursor : Cursor) (reader : ListReader α) : Result α :=
  (ExceptT.run reader cursor).1

/-- Replaces the title of an error. -/
def titled {α : Type} (reader : ListReader α) (title : String) : ListReader α :=
  ExceptT.adapt (·.withTitle title) reader

def remaining : ListReader (List Sexpr) :=
  return (← get).remaining

def isAtEnd : ListReader Bool :=
  return (← remaining).isEmpty

end ListReader

namespace Cursor

/-- The error of reading past the end of a list. -/
def endOfList (span : Span) : Message :=
  .invalidSpan span.lastByte "Unexpected end of list"

def peek? (c : Cursor) : Option Sexpr :=
  c.remaining.head?

def pop : ListReader Sexpr := do
  let c ← get
  match c.remaining with
  | [] => throw (endOfList c.span)
  | e :: rest =>
    set { c with remaining := rest }
    return e

def popAtom : ListReader Symbol := do
  let e ← pop
  match e.atom? with
  | some symbol => return symbol
  | none => throw (.invalid e "Expected an atom")

def popList : ListReader Cursor := do
  let e ← pop
  match e.cursor? with
  | some cursor => return cursor
  | none => throw (.invalid e "Expected a list")

/-- Reads an atom of a known name. Another element is not consumed. -/
def popKnownAtom (name : String) : ListReader Unit := do
  let before ← get
  let e ← pop
  unless e.isAtom name do
    set before
    throw (.invalid e ("Expected the atom `" ++ name ++ "`"))

end Cursor
end FinitePlanning
