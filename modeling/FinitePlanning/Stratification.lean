import Std.Data.HashMap
import Std.Data.HashSet
import FinitePlanning.Budget
import FinitePlanning.Collections
import FinitePlanning.Graph.Basic
import FinitePlanning.Ground.Basic

/-!
Stratification of ground axioms. Each derived atom gets a layer such that its axioms require only
atoms of its own and lower layers, and negations only of atoms of lower layers. Before, the axioms
on which nothing depends are left out, and so are the useless ones of those of one derived atom: an
axiom is useless if it requires its own effect, or if another one has the same effect under fewer
conditions.
-/

namespace FinitePlanning

namespace GroundAxiom

/-- Whether the axiom requires its own effect. -/
def isCircular (a : GroundAxiom) : Bool :=
  a.effect.positive ∈ a.condition

/-- Whether an axiom holds whenever another one does, their effects being equal. -/
def dominates (a b : GroundAxiom) : Bool :=
  a.condition.all (· ∈ b.condition)

/-- The axiom with the literals of its condition in order, each once. -/
def ordered (a : GroundAxiom) : GroundAxiom :=
  { a with condition := orderedSet a.condition }

/-- Adds an axiom to a list of axioms none of which dominates another one. -/
def insertUndominated (kept : List GroundAxiom) (a : GroundAxiom) : List GroundAxiom :=
  if kept.any (·.dominates a) then kept
  else kept.filter (!a.dominates ·) ++ [a]

/-- The axioms of a derived atom without the useless ones. -/
def simplify (axioms : List GroundAxiom) : List GroundAxiom :=
  ((axioms.map ordered).filter (!·.isCircular)).foldl insertUndominated []

end GroundAxiom

/-- The literals in the precondition and in the effect conditions of an action. -/
def GroundAction.conditionLiterals (a : GroundAction) : List Literal :=
  a.precondition ++ (a.adds ++ a.deletes).flatMap (·.condition)

/-- Derived atoms with their axioms. Atoms are denoted by their positions. -/
structure Dependencies where
  /-- The derived atoms in order. -/
  atoms : Array Atom
  /-- The axioms of each atom. -/
  axioms : Array (List GroundAxiom)
  /-- The atoms that the axioms of each atom require, in order. -/
  positive : Array (List Nat)
  /-- The atoms whose negation the axioms of each atom require, in order. -/
  negative : Array (List Nat)

namespace Dependencies

/-- The atoms that occur in the conditions of axioms, either positively or negatively. -/
def required (position : Std.HashMap Atom Nat) (negated : Bool) (axioms : List GroundAxiom) :
    List Nat :=
  orderedSet (axioms.flatMap fun a => a.condition.filterMap fun l =>
    if l.negated = negated then position[l.atom]? else none)

def ofAxioms (axioms : List GroundAxiom) : Dependencies :=
  let atoms := (orderedSet (axioms.map (·.effect))).toArray
  let position := Std.HashMap.ofList atoms.toList.zipIdx
  let file (a : GroundAxiom) (groups : Array (List GroundAxiom)) : Array (List GroundAxiom) :=
    groups.modify (position.getD a.effect 0) (a :: ·)
  let groups := axioms.foldr file (Array.replicate atoms.size [])
  { atoms
    axioms := groups
    positive := groups.map (required position false)
    negative := groups.map (required position true) }

/-- The graph with an edge from each atom to those that it depends on. -/
def graph (d : Dependencies) : Graph :=
  ⟨d.positive.zipWith (fun p n => orderedSet (p ++ n)) d.negative⟩

/-- The atoms that occur in the given literals, and those they depend on. -/
def relevantAtoms (d : Dependencies) (uses : List Literal) : Std.HashSet Atom :=
  let used := Std.HashSet.ofList (uses.map (·.atom))
  let g := d.graph
  let roots := g.vertices.filter fun v => (d.atoms[v]?).any used.contains
  .ofList ((g.traverse roots).discovered.filterMap (d.atoms[·]?))

end Dependencies

/-- The axioms of the derived atoms on which the given literals depend. -/
def relevantAxioms (axioms : List GroundAxiom) (uses : List Literal) : List GroundAxiom :=
  let relevant := (Dependencies.ofAxioms axioms).relevantAtoms uses
  axioms.filter fun a => relevant.contains a.effect

/-- The axioms of derived atoms with the layer of each atom. -/
structure StratifiedAxioms where
  /-- Grouped by component of the dependency graph, then by derived atom. -/
  axioms : List GroundAxiom := []
  layers : List (Atom × Nat) := []
deriving Repr, Inhabited

namespace Dependencies

variable (d : Dependencies)

/-- A dependency of an atom on the negation of an atom in its own component. -/
def negativeCycle? (componentOf : Array Nat) : Option (Atom × Atom) :=
  (List.range d.atoms.size).findSome? fun v =>
    ((d.negative.getD v []).find? fun w => componentOf[v]? == componentOf[w]?).map fun w =>
      (d.atoms.getD v default, d.atoms.getD w default)

/-- The least layer that the layers of the atoms it depends on allow for an atom. Atoms of its own
component have layer zero at that time. -/
def leastLayer (layerOf : Array Nat) (v : Nat) : Nat :=
  let positive := (d.positive.getD v []).map fun w => layerOf.getD w 0
  let negative := (d.negative.getD v []).map fun w => layerOf.getD w 0 + 1
  (positive ++ negative).foldl max 0

/-- Gives each component the least layer that the components below it allow. -/
def leastLayers (components : List (List Nat)) : Array Nat :=
  components.foldr (fun c layerOf =>
    let layer := (c.map (d.leastLayer layerOf)).foldl max 0
    c.foldl (·.setIfInBounds · layer) layerOf) (Array.replicate d.atoms.size 0)

/-- Gives each component a layer of its own, the last one being the lowest. -/
def separateLayers (components : List (List Nat)) : Array Nat :=
  Graph.componentOf d.atoms.size components.reverse

def layers (strategy : LayerStrategy) (components : List (List Nat)) : Array Nat :=
  match strategy with
  | .min => d.leastLayers components
  | .max => d.separateLayers components

end Dependencies

/-- Simplifies the axioms on which the goal and the actions depend, and assigns layers to their
atoms. Fails if an atom depends on the negation of an atom of its own component. -/
def StratifiedAxioms.compute (actions : List GroundAction) (axioms : List GroundAxiom)
    (goal : List Literal) (strategy : LayerStrategy) : Compilation StratifiedAxioms := do
  let relevant := relevantAxioms axioms (goal ++ actions.flatMap (·.conditionLiterals))
  let d := Dependencies.ofAxioms relevant
  let components := d.graph.components
  let simplified := d.axioms.map GroundAxiom.simplify
  let atoms := components.flatten
  let kept := atoms.flatMap fun v => simplified.getD v []
  Compilation.info (toString (relevant.length - kept.length) ++ " axioms removed by simplifying")
  match d.negativeCycle? (Graph.componentOf d.atoms.size components) with
  | some (atom, dependency) =>
    throw (.notStratifiable (atom.text ++ " depends negatively on " ++ dependency.text
      ++ " in a cycle"))
  | none =>
    let layerOf := d.layers strategy components
    return {
      axioms := kept
      layers := atoms.filterMap fun v => (d.atoms[v]?).map fun a => (a, layerOf.getD v 0) }

end FinitePlanning
