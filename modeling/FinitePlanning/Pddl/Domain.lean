import FinitePlanning.Pddl.Feature
import FinitePlanning.Pddl.TypedSymbol
import FinitePlanning.Sexpr.Reader

/-!
Domain files. Every block is kept as close as possible to its syntax: conditions and effects stay
S-expressions.
-/

namespace FinitePlanning
namespace Pddl

structure PredicateDeclaration where
  name : Symbol
  parameters : List TypedSymbol
  span : Span

structure FunctionDeclaration where
  name : Symbol
  parameters : List TypedSymbol
  type : Option Symbol
  span : Span

structure ActionDeclaration where
  name : Symbol
  parameters : List TypedSymbol
  precondition : Option Sexpr
  effect : Option Sexpr

/-- The definition of a derived predicate, `(:derived (head ?x - t) body)`. -/
structure DerivedDeclaration where
  name : Symbol
  parameters : List TypedSymbol
  body : Sexpr
  span : Span

structure Domain where
  name : Symbol
  features : List Feature := []
  types : List TypedSymbol := []
  constants : List TypedSymbol := []
  predicates : List PredicateDeclaration := []
  functions : List FunctionDeclaration := []
  actions : List ActionDeclaration := []
  derived : List DerivedDeclaration := []

def DerivedDeclaration.text (d : DerivedDeclaration) : String :=
  parametersText d.name d.parameters ++ " <- " ++ d.body.text

namespace Domain

def text (d : Domain) : String :=
  let block (title : String) (lines : List String) :=
    "\n# " ++ title ++ " \n  " ++ "\n  ".intercalate lines
  "# Domain : " ++ d.name.name
    ++ block "Types" (d.types.map (·.text))
    ++ block "Predicates" (d.predicates.map fun p => parametersText p.name p.parameters)
    ++ block "Functions" (d.functions.map fun f => parametersText f.name f.parameters)
    ++ block "Actions" (d.actions.map fun a => parametersText a.name a.parameters)
    ++ block "Derived" (d.derived.map (·.text))

def readFeature (e : Sexpr) : Result Feature :=
  match e.atom? with
  | none => .error (.invalid e "Expected feature name but got list")
  | some symbol => (Feature.ofText symbol.name).mapError (.invalid symbol)

/-- Reads a name followed by typed parameters. -/
def readHead (e : Sexpr) (complaint : String) : Result (Symbol × List TypedSymbol × Span) :=
  match e.cursor? with
  | none => .error (.invalid e complaint)
  | some cursor => ListReader.runOn cursor do
    let name ← Cursor.popAtom
    return (name, ← typedSymbols, cursor.span)

def readPredicate (e : Sexpr) : Result PredicateDeclaration := do
  let (name, parameters, span) ← readHead e "Expected a list"
  return { name, parameters, span }

def readFunction (e : Sexpr) : Result FunctionDeclaration := do
  let (name, parameters, span) ← readHead e "Expected a list"
  return { name, parameters, type := none, span }

/-- Reads functions, each with an optional type as in `(distance ?a ?b) - number`. -/
def readFunctions (whole : Span) : List Sexpr → Result (List FunctionDeclaration)
  | [] => return []
  | [e] => return [← readFunction e]
  | e :: dash :: rest => do
    let untyped ← readFunction e
    if dash.isAtom "-" then
      match rest with
      | [] => throw ((Cursor.endOfList whole).withTitle "expected a type")
      | .list elements span :: _ =>
        throw ((Message.invalid (Sexpr.list elements span) "Expected an atom").withTitle
          "expected a type")
      | .atom type :: rest =>
        return { untyped with type := some type } :: (← readFunctions whole rest)
    else return untyped :: (← readFunctions whole (dash :: rest))

/-- The parts of an action that were given so far. -/
structure ActionParts where
  parameters : Option (List TypedSymbol) := none
  precondition : Option Sexpr := none
  effect : Option Sexpr := none

/-- Adds one keyword of an action with its value. -/
def ActionParts.add (parts : ActionParts) (key : Symbol) (value : Sexpr) : Result ActionParts := do
  let once (given : Bool) : Result Unit :=
    if given then
      throw (.invalid key ("Duplicated '" ++ key.name ++ "' tag is not allowed"))
    else pure ()
  match key.name with
  | ":parameters" =>
    once parts.parameters.isSome
    match value.cursor? with
    | none => throw (.invalid value "Expected a parameter list")
    | some cursor => return { parts with parameters := some (← ListReader.runOn cursor typedSymbols) }
  | ":precondition" =>
    once parts.precondition.isSome
    return { parts with precondition := some value }
  | ":effect" =>
    once parts.effect.isSome
    return { parts with effect := some value }
  | _ => throw (.invalid key "unsupported key in action")

/-- Reads the keywords of an action, each followed by its value. -/
def readActionParts (whole : Span) (parts : ActionParts) : List Sexpr → Result ActionParts
  | [] => return parts
  | .list elements span :: _ => throw (.invalid (Sexpr.list elements span) "Expected an atom")
  | [.atom key] => throw ((Cursor.endOfList whole).info key "No value associated to arg")
  | .atom key :: value :: rest => do readActionParts whole (← parts.add key value) rest

def readAction : ListReader ActionDeclaration := do
  let name ← Cursor.popAtom
  let c ← get
  let parts ← readActionParts c.span {} c.remaining
  return {
    name
    parameters := parts.parameters.getD []
    precondition := parts.precondition
    effect := parts.effect }

def readDerived : ListReader DerivedDeclaration := do
  let head ← Cursor.pop
  let (name, parameters, _) ← readHead head "Expected the head of the derived predicate"
  let c ← get
  match c.remaining with
  | [] => throw ((Cursor.endOfList c.span).withTitle "Missing body of derived predicate")
  | [body] => return { name, parameters, body, span := c.span }
  | _ :: unexpected :: _ => throw (.invalid unexpected "Expected end of derived predicate")

/-- Adds a block, which associates a keyword to a value or a sequence of values. -/
def addBlock (d : Domain) (block : Sexpr) : Result Domain :=
  match block.cursor? with
  | none => throw (.invalid block "expected a property list")
  | some cursor => ListReader.runOn cursor do
    let key ← Cursor.popAtom
    let values ← ListReader.remaining
    match key.name with
    | ":requirements" =>
      let features ← (values.mapM readFeature : Result _)
      return { d with features := d.features ++ features }
    | ":predicates" =>
      let predicates ← (values.mapM readPredicate : Result _)
      return { d with predicates := d.predicates ++ predicates }
    | ":types" =>
      unless d.types.isEmpty do
        throw (.invalid block "More than one ':types' section definition")
      return { d with types := ← typedSymbols }
    | ":constants" =>
      unless d.constants.isEmpty do
        throw (.invalid block "More than one ':constants' section definition")
      return { d with constants := ← typedSymbols }
    | ":functions" =>
      return { d with functions := d.functions ++ (← readFunctions cursor.span values) }
    | ":action" => return { d with actions := d.actions ++ [← readAction] }
    | ":derived" => return { d with derived := d.derived ++ [← readDerived] }
    | ":durative-action" => throw (.invalid block "Temporal planning is not supported")
    | _ => throw (.invalid block "unsupported block")

def ofSexpr (e : Sexpr) : Result Domain :=
  match e.cursor? with
  | none => throw (.invalid e "Expected a list")
  | some cursor => ListReader.runOn cursor do
    Cursor.popKnownAtom "define"
    let declaration ← Cursor.popList
    let name ← ListReader.runOn declaration do
      Cursor.popKnownAtom "domain"
      Cursor.popAtom.titled "missing name of domain"
    let blocks ← ListReader.remaining
    (blocks.foldlM addBlock { name } : Result Domain)

def read (source : Source) : Result Domain := do
  let e ← Sexpr.read source
  (ofSexpr e).titled "Invalid domain: Syntax error"

end Domain
end Pddl
end FinitePlanning
