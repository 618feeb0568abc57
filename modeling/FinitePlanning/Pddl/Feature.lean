/-!
The features that a domain can require.
-/

namespace FinitePlanning
namespace Pddl

inductive Feature where
  | strips
  | typing
  | equality
  | negativePreconditions
  | disjunctivePreconditions
  | universalPreconditions
  | existentialPreconditions
  | quantifiedPreconditions
  | conditionalEffects
  | derivedPredicates
  | adl
  | actionCosts
  | durativeActions
  | numericFluents
  | fluents
  | timedInitialLiterals
  | preferences
  | constraints
deriving DecidableEq, Repr

namespace Feature

def all : List Feature :=
  [strips, typing, equality, negativePreconditions, disjunctivePreconditions,
    universalPreconditions, existentialPreconditions, quantifiedPreconditions, conditionalEffects,
    derivedPredicates, adl, actionCosts, durativeActions, numericFluents, fluents,
    timedInitialLiterals, preferences, constraints]

/-- The keyword of a feature. -/
def text : Feature → String
  | strips => ":strips"
  | typing => ":typing"
  | equality => ":equality"
  | negativePreconditions => ":negative-preconditions"
  | disjunctivePreconditions => ":disjunctive-preconditions"
  | universalPreconditions => ":universal-preconditions"
  | existentialPreconditions => ":existential-preconditions"
  | quantifiedPreconditions => ":quantified-preconditions"
  | conditionalEffects => ":conditional-effects"
  | derivedPredicates => ":derived-predicates"
  | adl => ":adl"
  | actionCosts => ":action-costs"
  | durativeActions => ":durative-actions"
  | numericFluents => ":numeric-fluents"
  | fluents => ":fluents"
  | timedInitialLiterals => ":timed-initial-literals"
  | preferences => ":preferences"
  | constraints => ":constraints"

/-- The feature of a keyword, or the text of the error. -/
def ofText (keyword : String) : Except String Feature :=
  match all.find? (·.text == keyword) with
  | some feature => .ok feature
  | none => .error ("Unknown feature `" ++ keyword ++ "`")

def listText (features : List Feature) : String :=
  " ".intercalate (features.map text)

end Feature
end Pddl
end FinitePlanning
