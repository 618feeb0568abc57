import FinitePlanning.Task.Formula

/-!
Elaboration of effects: nested effects are flattened into a list of single literals, each with the
parameters and the condition under which it takes place. Effects that are still to be flattened are
kept on a stack.
-/

namespace FinitePlanning
namespace Elaboration

/-- Keywords of compound effects. -/
inductive EffectKeyword where
  | and
  | not
  | forall
  | when
  | increase
deriving DecidableEq, Repr

def EffectKeyword.ofKeyword? : String → Option EffectKeyword
  | "and" => some .and
  | "not" => some .not
  | "forall" => some .forall
  | "when" => some .when
  | "increase" => some .increase
  | _ => none

/-- What encloses an effect: quantified variables, conditions, and the names in scope. -/
structure Enclosure where
  parameters : List Parameter := []
  conditions : List Condition := []
  scope : Scope

/-- The effects and the cost that were read so far. -/
structure Outcome where
  effects : List Effect := []
  cost : Option Cost := none

/-- Adds an effect. When an atom is both added and deleted under the same parameters and condition
only the addition stays. -/
def addEffect (effects : List Effect) (e : Effect) : List Effect :=
  let opposite := { e with literal := e.literal.negate }
  if opposite ∈ effects then
    if e.literal.negated then effects else effects.erase opposite ++ [e]
  else if e ∈ effects then effects
  else effects ++ [e]

def Outcome.add (o : Outcome) (within : Enclosure) (literal : Literal) : Outcome :=
  let condition := (Condition.and within.conditions).simplified
  { o with effects := addEffect o.effects ⟨within.parameters, condition, literal⟩ }

/-- The atom of an effect, whose predicate has to be one of the domain. -/
def effectAtom (d : Declarations) (scope : Scope) (e : Sexpr) : Elaboration Atom := do
  let a ← atom d scope e
  match a.predicate with
  | .named _ => return a
  | .equal => throw (.invalid e "Equality cannot be modified by an action")
  | .type _ => throw (.invalid e "The type of an object cannot be modified by an action")

def integer (symbol : Symbol) : Result Int :=
  (Text.readInteger symbol.name.toList).mapError fun
    | .fractional => .invalid symbol "Fractional numbers are not supported"
    | .notNumber => .invalid symbol "Expected a number"

def functionTerm (d : Declarations) (scope : Scope) (e : Sexpr) : Result Atom := do
  let (head, args) ← headed e "Expected a function term"
  match d.functions.lookup head.name with
  | none => throw (.invalid head "Unknown function")
  | some arity =>
    let args ← args.mapM (term d scope)
    if args.length = arity then return .named head.name args
    throw (.invalid head
      ("Expected " ++ toString arity ++ " arguments but got " ++ toString args.length))

/-- The function that accumulates the costs of a plan. -/
def totalCost : String := "total-cost"

def isTotalCost (e : Sexpr) : Bool :=
  (e.arguments? totalCost).any (·.isEmpty)

/-- Reads the arguments of `(increase (total-cost) value)`. -/
def cost (d : Declarations) (scope : Scope) (whole : Sexpr) : List Sexpr → Result Cost
  | [target, value] => do
    unless isTotalCost target do
      throw (.invalid target "Only increases of `(total-cost)` are supported")
    match value with
    | .atom symbol =>
      let c ← integer symbol
      if c < 0 then throw (.invalid symbol "Action costs must not be negative")
      return .constant c
    | .list elements span => return .function (← functionTerm d scope (.list elements span))
  | _ => throw (.invalid whole "`increase` expects two arguments")

/-- An effect that is still to be flattened, and what encloses it. -/
structure PendingEffect where
  effect : Sexpr
  within : Enclosure

/-- The effects of a list, all within the same enclosure. -/
def pendingAll (within : Enclosure) (es : List Sexpr) : List PendingEffect :=
  es.map (⟨·, within⟩)

def pendingWeight (stack : List PendingEffect) : Nat :=
  total (stack.map (·.effect.size))

theorem pendingWeight_cons (p : PendingEffect) (stack : List PendingEffect) :
    pendingWeight (p :: stack) = p.effect.size + pendingWeight stack :=
  rfl

theorem pendingWeight_pendingAll (within : Enclosure) (es : List Sexpr)
    (stack : List PendingEffect) :
    pendingWeight (pendingAll within es ++ stack) = Sexpr.sizeAll es + pendingWeight stack := by
  induction es with
  | nil => exact (Nat.zero_add _).symm
  | cons e es ih => exact (congrArg (e.size + ·) ih).trans (Nat.add_assoc ..).symm

/-- Works off a stack: effects are flattened, and what they do is added to the outcome. -/
def flattenAll (d : Declarations) : List PendingEffect → Outcome → Elaboration Outcome
  | [], o => return o
  | ⟨.atom symbol, _⟩ :: _, _ => throw (.invalid (Sexpr.atom symbol) "Expected an effect")
  | ⟨.list [] _, _⟩ :: stack, o => flattenAll d stack o
  | ⟨.list (.list es place :: _) _, _⟩ :: _, _ =>
    throw (.invalid (Sexpr.list es place) "Expected an atom")
  | ⟨.list (.atom head :: args) span, within⟩ :: stack, o =>
    let whole := Sexpr.list (.atom head :: args) span
    match EffectKeyword.ofKeyword? head.name with
    | some .and => flattenAll d (pendingAll within args ++ stack) o
    | some .forall =>
      match args with
      | [vars, body] => do
        let (parameters, inner) ← quantified d within.scope vars
        let parameters := within.parameters ++ parameters
        flattenAll d (⟨body, { within with parameters, scope := inner }⟩ :: stack) o
      | _ => throw (.invalid whole "Expected a list of variables and an effect")
    | some .when =>
      match args with
      | [premise, body] => do
        let conditions := within.conditions ++ [← condition d within.scope premise]
        flattenAll d (⟨body, { within with conditions }⟩ :: stack) o
      | _ => throw (.invalid whole "Expected a condition and an effect")
    | some .increase => do
      unless within.parameters.isEmpty && within.conditions.isEmpty do
        throw (.invalid whole
          "Cost increases are only supported as unconditional top-level effects")
      if o.cost.isSome then
        throw (.invalid whole "Action has more than one cost effect")
      let c ← (cost d within.scope whole args : Result Cost)
      flattenAll d stack { o with cost := some c }
    | some .not =>
      match args with
      | [a] => do flattenAll d stack (o.add within (← effectAtom d within.scope a).negative)
      | _ => throw (.invalid whole "`not` expects exactly one argument")
    | none => do flattenAll d stack (o.add within (← effectAtom d within.scope whole).positive)
termination_by stack => pendingWeight stack
decreasing_by
  all_goals simp only [pendingWeight_cons, pendingWeight_pendingAll, Sexpr.size, Sexpr.sizeAll]
  all_goals omega

/-- Flattens an effect and adds what it does to the outcome. -/
def effect (d : Declarations) (within : Enclosure) (o : Outcome) (e : Sexpr) :
    Elaboration Outcome :=
  flattenAll d [⟨e, within⟩] o

end Elaboration
end FinitePlanning
