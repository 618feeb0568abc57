import FinitePlanning.FiniteDomain.Basic

/-!
The written form of finite-domain tasks, a list of lines. Lists are preceded by their lengths, and
what is not a number stands in blocks.
-/

namespace FinitePlanning
namespace FiniteDomain

/-- Lines between marks of the beginning and the end. -/
def block (name : String) (body : List String) : List String :=
  ("begin_" ++ name) :: body ++ ["end_" ++ name]

/-- Items after their number. -/
def counted (items : List String) : List String :=
  toString items.length :: items

def factLines (facts : List Fact) : List String :=
  counted (facts.map (·.text))

/-- A number, or `-1` if there is none. -/
def orMinusOne (n : Option Nat) : String :=
  (n.map toString).getD "-1"

/-- The lines of the variable at a position. -/
def Variable.lines (v : Variable) (position : Nat) : List String :=
  block "variable" (["var" ++ toString position, orMinusOne v.layer, toString v.range] ++ v.names)

def MutexGroup.lines (m : MutexGroup) : List String :=
  block "mutex_group" (factLines m.facts)

/-- The condition, the variable and its old and new value. -/
def Effect.text (e : Effect) : String :=
  " ".intercalate (factLines e.condition ++ [toString e.var, orMinusOne e.before, toString e.after])

/-- A name without the parentheses around it. -/
def bareName (name : String) : String :=
  let opened := match name.toList with
    | '(' :: rest => rest
    | cs => cs
  String.ofList (if opened.getLast? = some ')' then opened.dropLast else opened)

def Operator.lines (o : Operator) : List String :=
  block "operator" (bareName o.name :: factLines o.prevail ++ counted (o.effects.map (·.text))
    ++ [toString o.cost])

/-- The effect of a rule is written with the other value of the binary variable as the old one. -/
def Rule.lines (r : Rule) : List String :=
  let old : Int := 1 - r.effect.value
  block "rule" (factLines r.condition
    ++ [" ".intercalate [toString r.effect.var, toString old, toString r.effect.value]])

namespace Task

def lines (t : Task) : List String :=
  block "version" ["3"]
    ++ block "metric" [if t.metric then "1" else "0"]
    ++ toString t.vars.size :: t.vars.toList.zipIdx.flatMap (fun (v, i) => v.lines i)
    ++ toString t.mutexes.length :: t.mutexes.flatMap (·.lines)
    ++ block "state" (t.init.toList.map toString)
    ++ block "goal" (factLines t.goal)
    ++ toString t.operators.length :: t.operators.flatMap (·.lines)
    ++ toString t.rules.length :: t.rules.flatMap (·.lines)

def text (t : Task) : String :=
  String.join (t.lines.map (· ++ "\n"))

end Task
end FiniteDomain
end FinitePlanning
