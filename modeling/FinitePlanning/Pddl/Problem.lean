import FinitePlanning.Pddl.TypedSymbol
import FinitePlanning.Sexpr.Reader

/-!
Problem files. Facts, goal and metric stay S-expressions.
-/

namespace FinitePlanning
namespace Pddl

inductive Direction where
  | minimize
  | maximize
deriving DecidableEq, Repr

def Direction.text : Direction → String
  | .minimize => "minimize"
  | .maximize => "maximize"

structure Metric where
  direction : Direction
  expression : Sexpr

structure Problem where
  name : Symbol
  domainName : Symbol
  objects : List TypedSymbol := []
  init : List Sexpr := []
  goal : Option Sexpr := none
  metric : Option Metric := none

namespace Problem

def text (p : Problem) : String :=
  "# Problem " ++ p.name.name ++ " (domain: " ++ p.domainName.name ++ ")"
    ++ "\n# Objects \n  " ++ "\n  ".intercalate (p.objects.map (·.text))
    ++ "\n# Init \n  " ++ "\n  ".intercalate (p.init.map (·.text))
    ++ "\n# Goal \n  " ++ (p.goal.map (·.text)).getD ""

def readGoal : ListReader Sexpr := do
  let goal ← Cursor.pop.titled "Missing goal condition"
  match ← ListReader.remaining with
  | [] => return goal
  | unexpected :: _ => throw (.invalid unexpected "A goal must be a single condition")

def readMetric : ListReader Metric := do
  let qualifier ← Cursor.popAtom
  match qualifier.name with
  | "minimize" => return ⟨.minimize, ← Cursor.pop⟩
  | "maximize" => return ⟨.maximize, ← Cursor.pop⟩
  | _ => throw (.invalid qualifier "expected `maximize` or `minimize")

/-- Adds a block, which associates a keyword to a value or a sequence of values. Requirements are
a matter of the domain and are ignored. -/
def addBlock (p : Problem) (block : Sexpr) : Result Problem :=
  match block.cursor? with
  | none => throw (.invalid block "Expected a list")
  | some cursor => ListReader.runOn cursor do
    let key ← Cursor.popAtom
    match key.name with
    | ":requirements" => return p
    | ":objects" => return { p with objects := p.objects ++ (← typedSymbols) }
    | ":init" => return { p with init := p.init ++ (← ListReader.remaining) }
    | ":goal" =>
      if p.goal.isSome then throw (.invalid block "More than one goal definition")
      return { p with goal := some (← readGoal) }
    | ":metric" => return { p with metric := some (← readMetric) }
    | _ => throw (.invalid block "unsupported block")

/-- Reads the name in a list that begins with a keyword. -/
def readName (keyword : String) (declaration : Cursor) : Result Symbol :=
  ListReader.runOn declaration do
    Cursor.popKnownAtom keyword
    Cursor.popAtom

def ofSexpr (e : Sexpr) : Result Problem :=
  match e.cursor? with
  | none => throw (.invalid e "Expected a list")
  | some cursor => ListReader.runOn cursor do
    Cursor.popKnownAtom "define"
    let declaration ← Cursor.popList.titled
      "Expected problem name definition of the form '(problem XXXXXX)'"
    let name ← readName "problem" declaration
    let declaration ← Cursor.popList
    let domainName ← readName ":domain" declaration
    let blocks ← ListReader.remaining
    (blocks.foldlM addBlock { name, domainName } : Result Problem)

def read (source : Source) : Result Problem := do
  let e ← Sexpr.read source
  (ofSexpr e).titled "Invalid problem: Syntax error"

end Problem
end Pddl
end FinitePlanning
