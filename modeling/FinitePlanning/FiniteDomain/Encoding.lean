import FinitePlanning.Collections
import FinitePlanning.FactGroup
import FinitePlanning.FiniteDomain.ActionEncoding
import FinitePlanning.FiniteDomain.Trivial
import FinitePlanning.Ground.Propositional

/-!
Encoding of a ground task with a variable for each of the chosen fact groups.
-/

namespace FinitePlanning
namespace FiniteDomain

/-- Why a ground task does not fit its fact groups. -/
inductive Mismatch where
  | factCount (atom : Atom) (count : Nat)
  | notEncoded (atom : Atom)
  | initialFacts (atom : Atom)
  | derivedFactCount (atom : Atom)
deriving DecidableEq, Repr

def Mismatch.text : Mismatch → String
  | factCount atom count => "atom " ++ atom.text ++ " is encoded by " ++ toString count ++ " facts"
  | notEncoded atom => "atom " ++ atom.text ++ " is not encoded"
  | initialFacts atom => "Inconsistent init facts! [fact = " ++ atom.text ++ "]"
  | derivedFactCount atom => "derived atom " ++ atom.text ++ " is not encoded by a single fact"

namespace Dictionary

variable (d : Dictionary)

/-- In the partial encoding every atom is a single fact, and otherwise at least one. -/
def checkAtom (isPartial : Bool) (a : Atom) : Except Mismatch Unit :=
  let count := (d.facts a).length
  if isPartial then if count = 1 then pure () else throw (.factCount a count)
  else if count = 0 then throw (.notEncoded a) else pure ()

/-- Gives the variables of an atom that is true initially their values. -/
def setInitial (state : Array Nat) (a : Atom) : Except Mismatch (Array Nat) :=
  (d.facts a).foldlM (fun state f =>
    let current := state.getD f.var 0
    if current = d.noneOfThose f.var ∨ current = f.value then
      pure (state.setIfInBounds f.var f.value)
    else throw (.initialFacts a)) state

/-- The values of the variables in a state with the given true atoms. -/
def initialState (init : List Atom) : Except Mismatch (Array Nat) :=
  init.foldlM d.setInitial (d.ranges.map (· - 1))

/-- The fact of a derived atom. -/
def derivedFact (a : Atom) : Except Mismatch Fact :=
  match d.facts a with
  | [f] => pure f
  | _ => throw (.derivedFactCount a)

/-- The layers of the variables of derived atoms. -/
def variableLayers (layers : List (Atom × Nat)) : Except Mismatch (Array (Option Nat)) :=
  layers.foldlM (fun ls (a, layer) => return ls.setIfInBounds (← d.derivedFact a).var (some layer))
    (Array.replicate d.ranges.size none)

/-- The variables with the names of their values. -/
def vars (layers : Array (Option Nat)) (names : List (List String)) : Array Variable :=
  let names := names.toArray
  d.ranges.mapIdx fun i range =>
    { range, layer := layers.getD i none, names := names.getD i [] }

/-- A group of exclusive atoms as facts. -/
def mutexGroup (atoms : List Atom) : MutexGroup :=
  .ofFacts (atoms.filterMap fun a => (d.facts a).head?)

end Dictionary

namespace Encoder

/-- The rules of an axiom, none if its condition violates a mutex. -/
def rules (e : Encoder) (a : GroundAxiom) : Except Mismatch (List Rule) :=
  match e.assignments? a.condition with
  | none => pure []
  | some conditions => do
    let effect ← e.dictionary.derivedFact a.effect
    return conditions.map (.ofParts · effect)

end Encoder

/-- A step that fails if the task does not fit its fact groups. -/
def fitting {α : Type} (r : Except Mismatch α) : Compilation α :=
  match r with
  | .ok a => pure a
  | .error m => throw (.inconsistent m.text)

/-- Encodes everything but the goal. -/
def Encoder.task (e : Encoder) (t : PropositionalTask) (groups : FactGroups) (isPartial : Bool)
    (init : Array Nat) (goal : List Fact) : Compilation Task := do
  let actions := t.actions.filterMap (ActionEncoding.ofAction e)
  let operators := actions.flatMap (·.operators)
  let rules ← fitting (t.axioms.axioms.mapM e.rules)
  let implied := total (actions.map (·.impliedCount))
  let simplified := total (actions.map (·.simplifiedCount))
  Compilation.info (toString implied ++ " implied effects removed")
  Compilation.info (toString simplified ++ " effect conditions simplified")
  let layers ← fitting (e.dictionary.variableLayers t.axioms.layers)
  if !isPartial then
    Compilation.info "using full encoding: between-variable mutex information skipped."
  return {
    vars := e.dictionary.vars layers groups.valueNames
    mutexes := if isPartial then groups.mutexGroups.map e.dictionary.mutexGroup else []
    init, goal, operators
    rules := rules.flatten
    metric := t.metric }

/-- Encodes a ground task, unless its goal is trivial. -/
def Task.encode (t : PropositionalTask) (groups : FactGroups) (isPartial : Bool) :
    Compilation (Except Trivial Task) := do
  let e : Encoder := ⟨.ofGroups groups.groups, .ofGroups groups.mutexGroups⟩
  fitting (t.atoms.forM (e.dictionary.checkAtom isPartial))
  let init ← fitting (e.dictionary.initialState t.init)
  match e.assignments? t.goal with
  | none => return .error .goalViolatesMutex
  | some [[]] => return .error .goalEmpty
  | some [goal] => return .ok (← e.task t groups isPartial init goal)
  | some _ => throw (.input (.error "Negative goal not supported"))

end FiniteDomain
end FinitePlanning
