import FinitePlanning.Proofs.FiniteDomain.CausalOrder
import FinitePlanning.Proofs.Graph.Connectivity
import FinitePlanning.Proofs.Invariant.Greedy
import FinitePlanning.Proofs.Stratification.Antichain
import FinitePlanning.Proofs.Stratification.Layers

/-!
Unordered collections. A compilation lists the entries of tables and the elements of sets in some
places. What it computes there is the same for each order in which they may be listed: entries are
put in an order in which no two of them are equal, updates commute, or only membership counts.
-/

namespace FinitePlanning

namespace FactGroups
namespace Choosing

/-! ### Sets of atoms -/

/-- Chooses a group whose atoms are listed in some order. In the partial encoding they are removed
from all groups one after the other. -/
def chooseListed (s : Choosing) (isPartial : Bool) (listed : List Atom) : Choosing :=
  { s with
    groups := if isPartial then
        listed.foldl (fun groups a => groups.map (·.filter (· ≠ a))) s.groups
      else s.groups
    chosen := listed :: s.chosen }

/-- Chooses groups, each of which is listed in some order. -/
def runListed (order : IterationOrder Atom) (isPartial : Bool) : Nat → Choosing → Choosing
  | 0, s => s
  | fuel + 1, s =>
    if s.IsDone then s
    else match s.bucket s.size with
      | [] => runListed order isPartial fuel { s with size := s.size - 1 }
      | i :: rest => runListed order isPartial fuel (if (s.groupAt i).length = s.size then
          (s.pop rest).chooseListed isPartial (order.list fuel (s.groupAt i))
        else (s.pop rest).file i)

/-- Removing the atoms of a group one after the other removes all of them. -/
theorem foldl_map_filter (listed : List Atom) (groups : Array (List Atom)) :
    listed.foldl (fun groups a => groups.map (·.filter (· ≠ a))) groups =
      groups.map (·.filter (· ∉ listed)) := by
  induction listed generalizing groups with
  | nil => simp
  | cons a listed ih =>
      rw [List.foldl_cons, ih, Array.map_map]
      refine Array.map_congr_left fun g _ => ?_
      rw [Function.comp_apply, List.filter_filter]
      exact List.filter_congr fun b _ => by simp [Bool.and_comm]

theorem chooseListed_eq {s : Choosing} {listed group : List Atom} (h : listed.Perm group)
    (isPartial : Bool) : s.chooseListed isPartial listed =
      { s.choose isPartial group with chosen := listed :: s.chosen } := by
  have hfilter : (fun g : List Atom => g.filter (· ∉ listed)) = (·.filter (· ∉ group)) := by
    funext g
    exact List.filter_congr fun a _ => by simp [h.mem_iff]
  rw [chooseListed, choose, foldl_map_filter, hfilter]

section Listed

variable (order : IterationOrder Atom) (isPartial : Bool) {s : Choosing}

theorem runListed_of_isDone (fuel : Nat) (hdone : s.IsDone) :
    runListed order isPartial fuel s = s := by
  cases fuel with
  | zero => rfl
  | succ fuel => rw [runListed, if_pos hdone]

theorem runListed_of_nil (fuel : Nat) (hsize : ¬s.IsDone) (hbucket : s.bucket s.size = []) :
    runListed order isPartial (fuel + 1) s =
      runListed order isPartial fuel { s with size := s.size - 1 } := by
  rw [runListed, if_neg hsize, hbucket]

theorem runListed_of_cons (fuel : Nat) {i : Nat} {rest : List Nat} (hsize : ¬s.IsDone)
    (hbucket : s.bucket s.size = i :: rest) :
    runListed order isPartial (fuel + 1) s =
      runListed order isPartial fuel (if (s.groupAt i).length = s.size then
        (s.pop rest).chooseListed isPartial (order.list fuel (s.groupAt i))
      else (s.pop rest).file i) := by
  rw [runListed, if_neg hsize, hbucket]

/-- However chosen groups are listed, the same groups are chosen. -/
theorem runListed_eq (fuel : Nat) {chosen : List (List Atom)}
    (h : List.Forall₂ List.Perm s.chosen chosen) :
    ∃ chosen', runListed order isPartial fuel { s with chosen } =
        { run isPartial fuel s with chosen := chosen' } ∧
      List.Forall₂ List.Perm (run isPartial fuel s).chosen chosen' := by
  induction fuel generalizing s chosen with
  | zero => exact ⟨chosen, rfl, h⟩
  | succ fuel ih =>
      by_cases hdone : s.IsDone
      · have hlisted : IsDone { s with chosen } := hdone
        rw [runListed_of_isDone order isPartial _ hlisted, run_of_isDone isPartial _ hdone]
        exact ⟨chosen, rfl, h⟩
      have hlisted : ¬IsDone { s with chosen } := hdone
      cases hbucket : s.bucket s.size with
      | nil =>
          have hempty : bucket { s with chosen } s.size = [] := hbucket
          rw [runListed_of_nil order isPartial fuel hlisted hempty,
            run_of_nil isPartial fuel hdone hbucket]
          exact @ih { s with size := s.size - 1 } chosen h
      | cons i rest =>
          have hcons : bucket { s with chosen } s.size = i :: rest := hbucket
          rw [runListed_of_cons order isPartial fuel hlisted hcons,
            run_of_cons isPartial fuel hdone hbucket]
          by_cases hlength : (s.groupAt i).length = s.size
          · rw [if_pos hlength,
              if_pos (show (groupAt { s with chosen } i).length = s.size from hlength),
              chooseListed_eq (order.perm fuel _)]
            exact @ih ((s.pop rest).choose isPartial (s.groupAt i)) _
              (.cons (order.perm fuel (s.groupAt i)).symm h)
          · rw [if_neg hlength,
              if_neg (show ¬(groupAt { s with chosen } i).length = s.size from hlength)]
            exact @ih ((s.pop rest).file i) chosen h

end Listed

end Choosing

/-- The groups that are chosen, and a group for each atom that is in none of them, where the atoms
of a chosen group are listed in some order. -/
def chooseListed (order : IterationOrder Atom) (groups : List (List Atom)) (atoms : List Atom)
    (isPartial : Bool) : List (List Atom) :=
  let large := (Choosing.runListed order isPartial (Choosing.stepBound groups)
    (Choosing.start groups)).chosen.reverse
  large ++ singletons (uncovered large atoms)

theorem map_mergeSort_eq {groups groups' : List (List Atom)}
    (h : List.Forall₂ List.Perm groups groups') :
    (groups'.map (·.mergeSort fun a b => (compare a b).isLE)) =
      groups.map (·.mergeSort fun a b => (compare a b).isLE) := by
  induction h with
  | nil => rfl
  | cons hg _ ih => rw [List.map_cons, List.map_cons, mergeSort_eq_of_perm hg, ih]

/-- The groups are the same once they are sorted. -/
theorem sortGroups_chooseListed (order : IterationOrder Atom) (groups : List (List Atom))
    (atoms : List Atom) (isPartial : Bool) :
    sortGroups (chooseListed order groups atoms isPartial) =
      sortGroups (chooseLarge groups isPartial ++
        singletons (uncovered (chooseLarge groups isPartial) atoms)) := by
  obtain ⟨chosen, hrun, hperm⟩ := Choosing.runListed_eq order isPartial (Choosing.stepBound groups)
    (List.forall₂_same.mpr fun g (_ : g ∈ (Choosing.start groups).chosen) => .refl g)
  have hlarge : List.Forall₂ List.Perm (chooseLarge groups isPartial) chosen.reverse :=
    List.rel_reverse hperm
  have huncovered : uncovered chosen.reverse atoms =
      uncovered (chooseLarge groups isPartial) atoms := by
    have hmem := fun a => (List.Perm.flatten_congr hlarge).mem_iff (a := a)
    simp only [uncovered, Std.HashSet.contains_ofList, List.contains_eq_mem, hmem]
  rw [chooseListed, hrun, huncovered, sortGroups, sortGroups, List.map_append, List.map_append,
    map_mergeSort_eq hlarge]

end FactGroups

namespace Graph
namespace WeightedEdges

/-! ### Tables of edges -/

/-- The total weight of the edges to each vertex, where the vertices are listed in some order. -/
def incomingListed (order : IterationOrder (List (Nat × Nat))) (n : Nat) (edges : WeightedEdges) :
    Array Nat :=
  (order.list n edges.toList).foldl
    (fun ws targets => targets.foldl (fun ws (v, w) => ws.modify v (· + w)) ws)
    (Array.replicate edges.size 0)

/-- The vertices in an order in which few edges lead backwards, given the total weight of the edges
to each vertex. -/
def orderFrom (edges : WeightedEdges) (weights : Array Nat) : List Nat :=
  let start : Picking :=
    { weights := weights.map some
      buckets := weights.toList.zipIdx.foldl (fun bs (w, v) => Picking.file w v bs) [] }
  (Picking.run edges edges.stepBound start).picked.reverse

/-- Weights are added up in any order. -/
theorem incomingListed_eq (order : IterationOrder (List (Nat × Nat))) (n : Nat)
    (edges : WeightedEdges) : edges.incomingListed order n = edges.incoming := by
  have hcomm : RightCommutative fun (ws : Array Nat) (e : Nat × Nat) =>
      ws.modify e.1 (· + e.2) := by
    refine ⟨fun ws e f => Array.ext_getElem? fun i => ?_⟩
    simp only [Array.getElem?_modify]
    split
    next =>
      split
      · rw [Option.map_map, Option.map_map]
        exact congrArg (Option.map · ws[i]?) (funext fun n => Nat.add_right_comm n _ _)
      · rfl
    next => rfl
  rw [incomingListed, incoming, ← Array.foldl_toList, ← List.foldl_flatten, ← List.foldl_flatten]
  exact (order.perm n edges.toList).flatten.foldl_eq _

end WeightedEdges
end Graph

namespace FiniteDomain
namespace CausalGraph

/-- Orders a component, where the table of its edges is listed in some order. -/
def orderWithinListed (order : IterationOrder (List (Nat × Nat))) (g : CausalGraph)
    (position : Array Nat) (n : Nat) (component : List Nat) : List Nat :=
  match component with
  | [single] => [single]
  | _ =>
    let members := component.toArray
    let edges := g.edgesWithin position component
    (edges.orderFrom (edges.incomingListed order n)).map (members.getD · 0)

/-- The variables in an order in which arcs between different components lead forward. -/
def orderingListed (order : IterationOrder (List (Nat × Nat))) (g : CausalGraph) : List Nat :=
  let components := g.graph.components
  let position := Graph.positions g.weights.size components.flatten
  components.zipIdx.flatMap fun (component, n) => g.orderWithinListed order position n component

/-- The causal graph with the set of goal variables listed in some order. -/
def listGoals (order : IterationOrder Nat) (g : CausalGraph) : CausalGraph :=
  { g with goals := order.list 0 g.goals.eraseDups }

variable {g : CausalGraph}

theorem orderWithinListed_eq (order : IterationOrder (List (Nat × Nat))) (position : Array Nat)
    (n : Nat) (component : List Nat) :
    g.orderWithinListed order position n component = g.orderWithin position component := by
  match component with
  | [_] => rfl
  | [] | _ :: _ :: _ =>
      rw [orderWithinListed, Graph.WeightedEdges.incomingListed_eq]
      · rfl
      · exact nofun

theorem orderingListed_eq (order : IterationOrder (List (Nat × Nat))) (g : CausalGraph) :
    g.orderingListed order = g.ordering := by
  simp only [orderingListed, orderWithinListed_eq, ordering]
  generalize Graph.positions _ _ = position
  have hmap := List.flatMap_map (f := Prod.fst) (g := g.orderWithin position)
    (l := g.graph.components.zipIdx)
  rw [List.zipIdx_map_fst] at hmap
  exact hmap.symm

theorem mem_goals_listGoals (order : IterationOrder Nat) (v : Nat) :
    v ∈ (g.listGoals order).goals ↔ v ∈ g.goals :=
  (order.perm 0 _).mem_iff.trans List.mem_eraseDups

theorem weightTo_listGoals (order : IterationOrder Nat) (g : CausalGraph) :
    (g.listGoals order).weightTo = g.weightTo := by
  funext target arcs
  simp only [weightTo, mem_goals_listGoals]

theorem ordering_listGoals (order : IterationOrder Nat) (g : CausalGraph) :
    (g.listGoals order).ordering = g.ordering := by
  have hedges : (g.listGoals order).edgesWithin = g.edgesWithin := by
    funext position component
    rw [edgesWithin, weightTo_listGoals]
    rfl
  have hwithin : (g.listGoals order).orderWithin = g.orderWithin := by
    funext position component
    unfold orderWithin
    rw [hedges]
  rw [ordering, hwithin]
  rfl

theorem isFresh_listGoals (order : IterationOrder Nat) {v : Nat} (hv : v < g.graph.size) :
    (g.listGoals order).towardGoals.isFresh v = g.towardGoals.isFresh v := by
  have hv : v < g.graph.reverse.size := (Graph.size_reverse g.graph).symm ▸ hv
  have hiff : (g.listGoals order).towardGoals.isFresh v = false ↔
      g.towardGoals.isFresh v = false := by
    refine (Graph.isFresh_traverse_iff hv).trans (Iff.trans ?_ (Graph.isFresh_traverse_iff hv).symm)
    simp only [mem_goals_listGoals]
  simpa using not_congr hiff

end CausalGraph

namespace Task

/-- The variables of a task in their new order, where sets of goal variables and tables of edges are
listed in some order. -/
def variableOrderListed (goalOrder : IterationOrder Nat)
    (edgeOrder : IterationOrder (List (Nat × Nat))) (t : Task) (reorder onlyRelevant : Bool) :
    List Nat :=
  let g := (CausalGraph.ofTask t).listGoals goalOrder
  let order := if reorder then g.orderingListed edgeOrder else List.range t.vars.size
  if onlyRelevant then
    let relevant := g.towardGoals
    order.filter (!relevant.isFresh ·)
  else order

/-- Orders the variables along the causal graph, where sets of goal variables and tables of edges
are listed in some order. -/
def arrangeListed (goalOrder : IterationOrder Nat) (edgeOrder : IterationOrder (List (Nat × Nat)))
    (t : Task) (reorder onlyRelevant : Bool) : Task :=
  if reorder || onlyRelevant then
    t.withOrder (t.variableOrderListed goalOrder edgeOrder reorder onlyRelevant)
  else t

theorem variableOrderListed_eq (goalOrder : IterationOrder Nat)
    (edgeOrder : IterationOrder (List (Nat × Nat))) (t : Task) (reorder onlyRelevant : Bool) :
    t.variableOrderListed goalOrder edgeOrder reorder onlyRelevant =
      t.variableOrder reorder onlyRelevant := by
  have horder : (if reorder then
        ((CausalGraph.ofTask t).listGoals goalOrder).orderingListed edgeOrder
      else List.range t.vars.size) = t.variableOrder reorder false := by
    rw [CausalGraph.orderingListed_eq, CausalGraph.ordering_listGoals]
    rfl
  rw [variableOrderListed, horder]
  cases onlyRelevant with
  | false => rfl
  | true =>
      refine List.filter_congr fun v hv => ?_
      have hlt : v < (CausalGraph.ofTask t).graph.size := CausalGraph.size_graph_ofTask t ▸
        List.mem_range.mp ((perm_variableOrder t reorder).mem_iff.mp hv)
      rw [CausalGraph.isFresh_listGoals goalOrder hlt]

theorem arrangeListed_eq (goalOrder : IterationOrder Nat)
    (edgeOrder : IterationOrder (List (Nat × Nat))) (t : Task) (reorder onlyRelevant : Bool) :
    t.arrangeListed goalOrder edgeOrder reorder onlyRelevant = t.arrange reorder onlyRelevant := by
  rw [arrangeListed, variableOrderListed_eq, arrange]

end Task
end FiniteDomain

/-- In whichever order unordered collections are listed, the useful groups, the chosen groups, the
axioms that are kept and the order of the variables are the same. -/
theorem results_do_not_depend_on_iteration_order :
    (∀ (order : IterationOrder (Invariant.Instance × Invariant.Occurrences)) invariants init n,
      Invariant.selectUseful invariants
          (order.list n (Invariant.instanceCounts invariants init)) =
        Invariant.usefulGroups invariants init) ∧
    (∀ (order : IterationOrder Atom) groups atoms isPartial,
      FactGroups.sortGroups (FactGroups.chooseListed order groups atoms isPartial) =
        FactGroups.sortGroups (FactGroups.chooseLarge groups isPartial ++
          FactGroups.singletons
            (FactGroups.uncovered (FactGroups.chooseLarge groups isPartial) atoms))) ∧
    (∀ (order : IterationOrder Nat) axioms,
      GroundAxiom.simplifyByMarking order axioms = GroundAxiom.simplify axioms) ∧
    ∀ (goalOrder : IterationOrder Nat) (edgeOrder : IterationOrder (List (Nat × Nat)))
      (t : FiniteDomain.Task) reorder onlyRelevant,
      t.arrangeListed goalOrder edgeOrder reorder onlyRelevant = t.arrange reorder onlyRelevant := by
  refine ⟨fun order invariants init n => ?_, FactGroups.sortGroups_chooseListed,
    GroundAxiom.simplifyByMarking_eq, FiniteDomain.Task.arrangeListed_eq⟩
  rw [Invariant.usefulGroups, Invariant.selectUseful_eq, Invariant.selectUseful_eq,
    Invariant.usefulEntries_of_perm (order.perm n _)]

end FinitePlanning
