/-!
Directed graphs on the vertices `0, …, n - 1`, their traversal depth first, and their strongly
connected components. A traversal keeps its pending steps in a list, so that long paths need no deep
recursion.
-/

namespace FinitePlanning

structure Graph where
  /-- The successors of each vertex. An edge may occur more than once. -/
  successors : Array (List Nat)
deriving Repr, Inhabited

namespace Graph

def ofLists (successors : List (List Nat)) : Graph :=
  ⟨successors.toArray⟩

def size (g : Graph) : Nat :=
  g.successors.size

def vertices (g : Graph) : List Nat :=
  List.range g.size

def successorsOf (g : Graph) (v : Nat) : List Nat :=
  g.successors.getD v []

/-- The graph with all edges turned round. -/
def reverse (g : Graph) : Graph :=
  let turn (v : Nat) (arcs : Array (List Nat)) (w : Nat) : Array (List Nat) :=
    arcs.modify w (v :: ·)
  ⟨g.vertices.foldl (fun arcs v => (g.successorsOf v).foldl (turn v) arcs)
    (Array.replicate g.size [])⟩

/-- What a traversal still has to do. -/
inductive Step where
  | enter (v : Nat)
  /-- All that can be reached from the vertex has been visited. -/
  | leave (v : Nat)
deriving DecidableEq, Repr

/-- How far a traversal has come. -/
structure Traversal where
  /-- Whether each vertex is still to be discovered. -/
  fresh : Array Bool
  /-- The discovered vertices, last first. -/
  discovered : List Nat := []
  /-- The vertices that were left, last first. -/
  finished : List Nat := []
deriving Repr, Inhabited

namespace Traversal

def isFresh (t : Traversal) (v : Nat) : Bool :=
  t.fresh.getD v false

def discover (t : Traversal) (v : Nat) : Traversal :=
  { t with fresh := t.fresh.setIfInBounds v false, discovered := v :: t.discovered }

def finish (t : Traversal) (v : Nat) : Traversal :=
  { t with finished := v :: t.finished }

theorem count_discover {t : Traversal} {v : Nat} (h : t.isFresh v = true) :
    (t.discover v).fresh.count true < t.fresh.count true := by
  unfold isFresh at h
  have hv : v < t.fresh.size := by
    by_cases hv : v < t.fresh.size
    · exact hv
    · simp [Array.getD, hv] at h
  have ht : t.fresh[v] = true := by simpa [Array.getD, hv] using h
  have hpos : 0 < t.fresh.count true := Array.count_pos_iff.2 (ht ▸ Array.getElem_mem hv)
  have hcount : (t.discover v).fresh.count true = t.fresh.count true - 1 := by
    simp [discover, Array.setIfInBounds, hv, Array.count_set, ht]
  rw [hcount]
  exact Nat.sub_lt hpos Nat.one_pos

end Traversal

/-- Visits what the pending steps reach without passing through discovered vertices. -/
def explore (g : Graph) : List Step → Traversal → Traversal
  | [], t => t
  | .leave v :: rest, t => g.explore rest (t.finish v)
  | .enter v :: rest, t =>
    if h : t.isFresh v = true then
      have := Traversal.count_discover h
      g.explore ((g.successorsOf v).map .enter ++ .leave v :: rest) (t.discover v)
    else g.explore rest t
termination_by pending t => (t.fresh.count true, pending.length)

def start (g : Graph) : Traversal :=
  { fresh := Array.replicate g.size true }

/-- Visits all that can be reached from the roots, root by root. -/
def traverse (g : Graph) (roots : List Nat) : Traversal :=
  g.explore (roots.map .enter) g.start

/-! ### Strongly connected components

A first traversal orders the vertices by when they are left. Taken in the opposite order, the
vertices that reach a vertex and are in no component yet are its component. -/

/-- Collects the component of a root unless it belongs to one already. -/
def collect (reversed : Graph) (acc : Traversal × List (List Nat)) (root : Nat) :
    Traversal × List (List Nat) :=
  let t := reversed.explore [.enter root] { acc.1 with discovered := [], finished := [] }
  (t, if t.discovered.isEmpty then acc.2 else t.discovered :: acc.2)

/-- The position of each vertex in a list of vertices. -/
def positions (size : Nat) (order : List Nat) : Array Nat :=
  (order.zipIdx).foldl (fun ps (v, i) => ps.setIfInBounds v i) (Array.replicate size 0)

/-- The strongly connected components. No edge leads from a component to an earlier one. The
vertices of a component are in the order in which they are discovered. -/
def components (g : Graph) : List (List Nat) :=
  let t := g.traverse g.vertices
  let discovery := positions g.size t.discovered.reverse
  let reversed := g.reverse
  let (_, found) := t.finished.foldl reversed.collect (reversed.start, [])
  found.reverse.map (·.mergeSort fun v w => discovery.getD v 0 ≤ discovery.getD w 0)

/-- The number of the component of each vertex. -/
def componentOf (size : Nat) (components : List (List Nat)) : Array Nat :=
  components.zipIdx.foldl (fun ns (c, i) => c.foldl (·.setIfInBounds · i) ns)
    (Array.replicate size 0)

end Graph
end FinitePlanning
