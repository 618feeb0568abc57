import FinitePlanning.Collections
import FinitePlanning.FiniteDomain.Dictionary
import FinitePlanning.Ground.Basic

/-!
Ground actions as operators. Negative conditions are multiplied out, so an
action may need several operators. A variable whose true atom is deleted, with no other one being
added, gets the value for none of its atoms.
-/

namespace FinitePlanning
namespace FiniteDomain

/-- What conditions are encoded with. -/
structure Encoder where
  dictionary : Dictionary
  /-- All groups of exclusive atoms, with which conditions are checked before they are encoded. -/
  mutexes : Dictionary

/-- An effect on an atom, as an assignment of its facts under each of the assignments. -/
structure EncodedEffect where
  condition : List Literal
  assignments : List Assignment
  facts : List Fact

/-- The conditions under which each fact is made true, in the order of the facts. -/
abbrev EffectTable := List (Fact × List Assignment)

namespace EffectTable

/-- Collects the conditions of each fact. -/
def ofEntries (entries : EffectTable) : EffectTable :=
  (entries.mergeSort fun a b => (compare a.1 b.1).isLE).foldr (fun (f, as) table =>
    match table with
    | (g, bs) :: rest => if f = g then (f, as ++ bs) :: rest else (f, as) :: table
    | [] => [(f, as)]) []

def mentions (t : EffectTable) (f : Fact) : Bool :=
  t.any (·.1 = f)

end EffectTable

namespace Encoder

variable (e : Encoder)

/-- The assignments with which all literals hold, unless this violates a mutex. -/
def assignments? (literals : List Literal) : Option (List Assignment) :=
  (e.mutexes.restrict literals).bind fun _ => e.dictionary.assignments? literals

/-- Assignments that cover the cases in which none of the conditions holds. -/
def negation (conditions : List (List Literal)) : List Assignment :=
  (choices conditions).flatMap fun literals =>
    (e.assignments? (literals.map (·.negate))).getD []

/-- An effect, unless it never takes place. -/
def effect? (x : ConditionalEffect) : Option EncodedEffect :=
  (e.assignments? x.condition).map (⟨x.condition, ·, e.dictionary.facts x.atom⟩)

/-- The assignments under which a fact is made true. -/
def entries (effects : List EncodedEffect) : EffectTable :=
  effects.flatMap fun x => x.facts.map (·, x.assignments)

/-- The conditions of the additions that set a variable. -/
def conditionsOn (adds : List EncodedEffect) (var : Nat) : List (List Literal) :=
  adds.flatMap fun x => (x.facts.filter (·.var = var)).map fun _ => x.condition

/-- The cases in which a fact is deleted under an assignment and nothing is added instead. -/
def deletionCases (noAdd : List Assignment) (f : Fact) (a : Assignment) : List Assignment :=
  if a.contradicts f then [] else noAdd.filterMap (a.assign f).union?

/-- The cases in which a variable gets the value for none of its atoms. -/
def deletions (adds deletes : List EncodedEffect) : EffectTable :=
  let deleted := EffectTable.ofEntries (entries deletes)
  let noAdd := (dropRepeats (deleted.map (·.1.var))).map fun var =>
    (var, e.negation (conditionsOn adds var))
  deleted.flatMap fun (f, assignments) =>
    let others := (noAdd.lookup f.var).getD []
    (assignments.flatMap (deletionCases others f)).map fun a =>
      (⟨f.var, e.dictionary.noneOfThose f.var⟩, [a])

def effectTable (a : GroundAction) : EffectTable :=
  let adds := a.adds.filterMap e.effect?
  let deletes := a.deletes.filterMap e.effect?
  .ofEntries (entries adds ++ e.deletions adds deletes)

/-- Simplifies the conditions under which a binary variable is set, if nothing sets it to its other
value: they need not require the other value. -/
def dropOtherValue (other : Fact) (assignments : List Assignment) : List Assignment :=
  let simpler := assignments.map (·.filter (· ≠ other))
  if simpler.any (·.isEmpty) then [[]] else simpler

/-- Simplifies the conditions of the facts of binary variables. -/
def simplifyBinary (t : EffectTable) : EffectTable :=
  t.map fun (f, assignments) =>
    let other : Fact := ⟨f.var, 1 - f.value⟩
    if e.dictionary.range f.var = 2 ∧ !t.mentions other then (f, dropOtherValue other assignments)
    else (f, assignments)

end Encoder

/-- An action in finite-domain form. There is an operator for each of the preconditions. -/
structure ActionEncoding where
  name : String
  cost : Int
  preconditions : List Assignment
  table : EffectTable
  /-- The table with simplified conditions. -/
  simplified : EffectTable

namespace ActionEncoding

def ofAction (e : Encoder) (a : GroundAction) : Option ActionEncoding :=
  (e.assignments? a.precondition).map fun preconditions =>
    let table := e.effectTable a
    ⟨a.name, a.cost, preconditions, table, e.simplifyBinary table⟩

/-- The effects that make a fact true, unless the precondition implies it. -/
def effectsOn (precondition : Assignment) (entry : Fact × List Assignment) : List Effect :=
  let (f, assignments) := entry
  if f ∈ precondition then []
  else (assignments.filterMap precondition.residual?).map
    (⟨f.var, precondition.value? f.var, f.value, ·⟩)

/-- The operator for a precondition, unless it changes nothing. -/
def operator? (x : ActionEncoding) (precondition : Assignment) : Option Operator :=
  let effects := x.simplified.flatMap (effectsOn precondition)
  let changed := effects.map (·.var)
  if effects.isEmpty then none
  else some (.ofParts x.name (precondition.filter (·.var ∉ changed)) effects x.cost)

def operators (x : ActionEncoding) : List Operator :=
  x.preconditions.filterMap x.operator?

/-- How often an effect is implied by a precondition. -/
def impliedCount (x : ActionEncoding) : Nat :=
  total (x.preconditions.map fun p => x.table.countP (·.1 ∈ p))

/-- How often the conditions of an effect were simplified. -/
def simplifiedCount (x : ActionEncoding) : Nat :=
  total (x.preconditions.map fun p => (x.table.zip x.simplified).countP fun (old, new) =>
    decide (old.1 ∉ p) && old.2 != new.2)

end ActionEncoding

end FiniteDomain
end FinitePlanning
