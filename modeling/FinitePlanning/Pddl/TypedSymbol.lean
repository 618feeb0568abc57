import FinitePlanning.Sexpr.Basic

/-!
Lists of symbols with type annotations. An annotation `- t` or `- (either t ...)` applies to the
symbols since the previous annotation.
-/

namespace FinitePlanning
namespace Pddl

/-- A declared name with the types given for it: none, one, or several alternatives. -/
structure TypedSymbol where
  symbol : Symbol
  types : List Symbol
deriving DecidableEq, Repr, Inhabited

def TypedSymbol.text (s : TypedSymbol) : String :=
  match s.types with
  | [] => s.symbol.name
  | [type] => s.symbol.name ++ ": " ++ type.name
  | several => s.symbol.name ++ ": \x7b" ++ ", ".intercalate (several.map (·.name)) ++ "\x7d"

/-- The parameters of a declaration, as they are displayed. -/
def parametersText (name : Symbol) (parameters : List TypedSymbol) : String :=
  name.name ++ "(" ++ ", ".intercalate (parameters.map (·.text)) ++ ")"

def typeName (e : Sexpr) : Result Symbol :=
  match e.atom? with
  | some symbol => .ok symbol
  | none => .error (.invalid e "expected type name")

/-- The types of an annotation: an atom, or `either` applied to atoms. -/
def annotatedTypes (e : Sexpr) : Result (List Symbol) :=
  match e.arguments? "either" with
  | some variants => variants.mapM typeName
  | none => return [← typeName e]

/-- Reads the elements of a list as typed symbols, after the symbols `pending` that have no
annotation yet. Yields the elements that were not read as well, which are none on success. -/
def readTyped (whole : Span) (pending : List Symbol) :
    List Sexpr → Result (List TypedSymbol) × List Sexpr
  | [] => (.ok (pending.map (⟨·, []⟩)), [])
  | .list elements span :: rest =>
    (.error (.invalid (Sexpr.list elements span) "Expected an atom"), rest)
  | .atom symbol :: rest =>
    if symbol.name = "-" then
      if pending = [] then
        (.error (.invalid symbol "Type annotation without any symbol to annotate"), rest)
      else match rest with
        | [] => (.error (Cursor.endOfList whole), [])
        | annotation :: rest =>
          match annotatedTypes annotation with
          | .error e => (.error e, rest)
          | .ok types =>
            let (result, rest) := readTyped whole [] rest
            (result.map (pending.map (⟨·, types⟩) ++ ·), rest)
    else readTyped whole (pending ++ [symbol]) rest

/-- Reads all remaining elements as typed symbols. -/
def typedSymbols : ListReader (List TypedSymbol) := do
  let c ← get
  let (result, rest) := readTyped c.span [] c.remaining
  set { c with remaining := rest }
  result

end Pddl
end FinitePlanning
