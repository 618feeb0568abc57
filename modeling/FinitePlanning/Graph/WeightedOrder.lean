import FinitePlanning.Collections

/-!
Orders of the vertices `0, …, n - 1` of a weighted graph in which few edges lead backwards. The next
vertex is one to which the edges from vertices not picked yet have the least total weight. Among
those it is the one that has had this weight for the longest time.
-/

namespace FinitePlanning
namespace Graph

/-- The targets of the edges from each vertex, with their weights. -/
abbrev WeightedEdges := Array (List (Nat × Nat))

namespace WeightedEdges

/-- The weight that makes a target come late. It is not taken off when an edge is dealt with. -/
def lateWeight : Nat := 100000

/-- The state of the choice. A bucket holds the vertices that had its weight when they were put into
it, the first one first. Vertices may have become lighter since then. -/
structure Picking where
  /-- The weight of the edges to each vertex that is not picked yet. -/
  weights : Array (Option Nat)
  /-- Buckets by increasing weight. -/
  buckets : List (Nat × List Nat)
  /-- The vertices that were picked, last first. -/
  picked : List Nat := []
deriving Repr

namespace Picking

/-- Puts a vertex into the bucket of a weight. -/
def file (weight v : Nat) : List (Nat × List Nat) → List (Nat × List Nat)
  | [] => [(weight, [v])]
  | (w, vs) :: rest =>
    if weight < w then (weight, [v]) :: (w, vs) :: rest
    else if weight = w then (w, vs ++ [v]) :: rest
    else (w, vs) :: file weight v rest

/-- Takes the weight of an edge off its target. -/
def release (s : Picking) (edge : Nat × Nat) : Picking :=
  let (target, weight) := edge
  match s.weights.getD target none with
  | none => s
  | some current =>
    if weight % lateWeight = 0 then s
    else
      let lighter := current - weight % lateWeight
      { s with
        weights := s.weights.setIfInBounds target (some lighter)
        buckets := file lighter target s.buckets }

/-- Picks a vertex. -/
def pick (edges : WeightedEdges) (s : Picking) (v : Nat) : Picking :=
  (edges.getD v []).foldl release
    { s with weights := s.weights.setIfInBounds v none, picked := v :: s.picked }

/-- Whether a vertex is not picked and has not become lighter than some weight. -/
def isCurrent (s : Picking) (weight v : Nat) : Bool :=
  (s.weights.getD v none).any (weight ≤ ·)

/-- Picks vertices until all buckets are empty, in at most `fuel` steps. -/
def run (edges : WeightedEdges) : Nat → Picking → Picking
  | 0, s => s
  | fuel + 1, s =>
    match s.buckets with
    | [] => s
    | (_, []) :: rest => run edges fuel { s with buckets := rest }
    | (weight, v :: vs) :: rest =>
      let current := s.isCurrent weight v
      let s := { s with buckets := (weight, vs) :: rest }
      run edges fuel (if current then s.pick edges v else s)

end Picking

/-- The total weight of the edges to each vertex. -/
def incoming (edges : WeightedEdges) : Array Nat :=
  edges.foldl (fun ws targets => targets.foldl (fun ws (v, w) => ws.modify v (· + w)) ws)
    (Array.replicate edges.size 0)

def start (edges : WeightedEdges) : Picking :=
  let weights := edges.incoming
  { weights := weights.map some
    buckets := weights.toList.zipIdx.foldl (fun bs (w, v) => Picking.file w v bs) [] }

/-- A bound on the number of steps: each vertex and each edge makes at most one entry in a bucket. -/
def stepBound (edges : WeightedEdges) : Nat :=
  2 * total (edges.toList.map fun targets => targets.length + 1)

/-- The vertices in an order in which few edges lead backwards. -/
def order (edges : WeightedEdges) : List Nat :=
  (Picking.run edges edges.stepBound edges.start).picked.reverse

end WeightedEdges
end Graph
end FinitePlanning
