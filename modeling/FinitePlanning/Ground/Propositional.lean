import FinitePlanning.Stratification

/-!
Ground tasks whose axioms are stratified.
-/

namespace FinitePlanning

structure PropositionalTask where
  /-- All atoms that may change. -/
  atoms : List Atom
  /-- The atoms that are true initially. Those that cannot change may be among them. -/
  init : List Atom
  goal : List Literal
  actions : List GroundAction
  axioms : StratifiedAxioms
  /-- Whether the costs of actions count. -/
  metric : Bool
deriving Repr, Inhabited

namespace PropositionalTask

/-- The atoms that are true initially and may change. -/
def fluentInit (t : PropositionalTask) : List Atom :=
  let fluent := Std.HashSet.ofList t.atoms
  t.init.filter fluent.contains

def text (t : PropositionalTask) : String :=
  let layers := t.axioms.layers.mergeSort fun a b => (compare a.1 b.1).isLE
  let lines := ["Initial state"] ++ t.fluentInit.map (·.text)
    ++ ["\nGoals"] ++ t.goal.map (·.text)
    ++ t.actions.map ("\nAction\n" ++ ·.text)
    ++ t.axioms.axioms.map ("\nAxiom\n" ++ ·.text)
    ++ ["\nAxiom layers"] ++ layers.map fun (a, layer) => a.text ++ ": layer " ++ toString layer
  String.join (lines.map (· ++ "\n"))

end PropositionalTask
end FinitePlanning
