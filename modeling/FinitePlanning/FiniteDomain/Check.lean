import FinitePlanning.FiniteDomain.Basic

/-!
Well-formedness of finite-domain tasks. All facts are about values that exist, operators set the
variables that are not derived and rules those that are, and the conditions of a rule are on its own
layer or below, those that a derived variable is false being strictly below.
-/

namespace FinitePlanning
namespace FiniteDomain

/-- What is wrong with a task. -/
inductive Defect where
  | noValue (var : Nat)
  | nameCount (var range names : Nat)
  | derivedNotBinary (var : Nat)
  | incompleteState
  | invalidFact (fact : Fact)
  | operatorOnDerived (name : String) (var : Nat)
  | ruleOnUnderived (var : Nat)
  | ruleAgainstLayers (layer var varLayer : Nat)
deriving DecidableEq, Repr

def Defect.text : Defect → String
  | noValue var => "variable " ++ toString var ++ " has no value"
  | nameCount var range names =>
    "variable " ++ toString var ++ " has " ++ toString range ++ " values but " ++ toString names
      ++ " names"
  | derivedNotBinary var => "derived variable " ++ toString var ++ " is not binary"
  | incompleteState => "initial state does not assign all variables"
  | invalidFact fact => "invalid fact " ++ fact.text
  | operatorOnDerived name var =>
    "operator " ++ name ++ " modifies the derived variable " ++ toString var
  | ruleOnUnderived var => "axiom modifies the non-derived variable " ++ toString var
  | ruleAgainstLayers layer var varLayer =>
    "axiom on layer " ++ toString layer ++ " depends on variable " ++ toString var ++ " of layer "
      ++ toString varLayer

/-- The value of a derived variable that is false. -/
def derivedFalse : Nat := 1

def Variable.check (v : Variable) (position : Nat) : Except Defect Unit := do
  if v.range = 0 then throw (.noValue position)
  if v.names.length ≠ v.range then throw (.nameCount position v.range v.names.length)
  if v.isDerived ∧ v.range ≠ 2 then throw (.derivedNotBinary position)

namespace Task

variable (t : Task)

/-- The layer of a variable that is derived. -/
def layerOf? (var : Nat) : Option Nat :=
  (t.vars[var]?).bind (·.layer)

def hasFact (f : Fact) : Bool :=
  (t.vars[f.var]?).any (f.value < ·.range)

def checkFact (f : Fact) : Except Defect Unit :=
  if t.hasFact f then pure () else throw (.invalidFact f)

def checkOperator (o : Operator) : Except Defect Unit := do
  (o.prevail ++ o.effects.flatMap (·.condition)).forM t.checkFact
  o.effects.forM fun e => do
    t.checkFact e.afterFact
    e.beforeFact?.forM t.checkFact
    if (t.layerOf? e.var).isSome then throw (.operatorOnDerived o.name e.var)

/-- Checks a fact in the condition of a rule of some layer. -/
def checkRuleCondition (layer : Nat) (f : Fact) : Except Defect Unit := do
  t.checkFact f
  match t.layerOf? f.var with
  | none => pure ()
  | some varLayer =>
    let most := if f.value = derivedFalse then varLayer + 1 else varLayer
    if layer < most then throw (.ruleAgainstLayers layer f.var varLayer)

def checkRule (r : Rule) : Except Defect Unit := do
  t.checkFact r.effect
  match t.layerOf? r.effect.var with
  | none => throw (.ruleOnUnderived r.effect.var)
  | some layer => r.condition.forM (t.checkRuleCondition layer)

/-- Whether a task is well formed, or the first of its defects. -/
def check : Except Defect Unit := do
  t.vars.toList.zipIdx.forM fun (v, i) => v.check i
  if t.init.size ≠ t.vars.size then throw .incompleteState
  (t.init.toList.zipIdx.map fun (value, var) => Fact.mk var value).forM t.checkFact
  (t.mutexes.flatMap (·.facts) ++ t.goal).forM t.checkFact
  t.operators.forM t.checkOperator
  t.rules.forM t.checkRule

end Task
end FiniteDomain
end FinitePlanning
