import FinitePlanning.Datalog.Symbols

/-!
Horn rules.
-/

namespace FinitePlanning
namespace Datalog

inductive Term where
  | variable (name : String)
  | object (id : ObjectId)
deriving DecidableEq, Repr, Inhabited

def Term.variable? : Term → Option String
  | .variable name => some name
  | .object _ => none

/-- An atom of a rule. -/
structure Pattern where
  relation : RelationId
  args : List Term
deriving DecidableEq, Repr, Inhabited

namespace Pattern

/-- The variables in order of occurrence. -/
def vars (p : Pattern) : List String :=
  p.args.filterMap Term.variable?

def hasVariables (p : Pattern) : Bool :=
  !p.vars.isEmpty

/-- The arguments that are objects, with their positions. -/
def constants (p : Pattern) : List (Nat × ObjectId) :=
  p.args.zipIdx.filterMap fun
    | (.object id, i) => some (i, id)
    | (.variable _, _) => none

def text (t : SymbolTable) (p : Pattern) : String :=
  let term : Term → String
    | .variable name => name
    | .object id => t.object id
  (t.relation p.relation).text ++ "(" ++ ", ".intercalate (p.args.map term) ++ ")"

end Pattern

/-- A rule with any number of conditions. -/
structure Rule where
  body : List Pattern
  head : Pattern
deriving DecidableEq, Repr, Inhabited

/-- How the conditions of a rule are related. -/
inductive RuleKind where
  /-- Two conditions, joined on their common variables. -/
  | join
  /-- At least two conditions without common variables. -/
  | product
  /-- A single condition. -/
  | project
deriving DecidableEq, Repr, Inhabited

def RuleKind.text : RuleKind → String
  | join => "join"
  | product => "product"
  | project => "project"

/-- A rule of one of the three kinds. -/
structure SplitRule extends Rule where
  kind : RuleKind
deriving DecidableEq, Repr, Inhabited

def SplitRule.text (t : SymbolTable) (r : SplitRule) : String :=
  r.kind.text ++ " " ++ r.head.text t ++ " :- " ++ ", ".intercalate (r.body.map (·.text t)) ++ "."

end Datalog
end FinitePlanning
