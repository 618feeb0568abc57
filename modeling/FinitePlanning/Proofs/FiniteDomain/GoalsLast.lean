import FinitePlanning.Proofs.FiniteDomain.CausalOrder
import FinitePlanning.Proofs.Graph.Connectivity
import FinitePlanning.Proofs.Graph.LateVertices

/-!
The order of the variables follows the causal graph. An arc between different strongly connected
components leads forward in it, and inside a component the variables of the goal come last, as long
as the other variables have few arcs to them.
-/

namespace FinitePlanning
namespace FiniteDomain

open Graph.WeightedEdges (totalTo lateWeight)

namespace Task

variable {t : Task} {vs ws : List Nat} {v w : Nat}

/-- A path of arcs leads from a variable to another one. -/
def Reaches (t : Task) : Nat → Nat → Prop :=
  Relation.ReflTransGen fun v w => (v, w) ∈ t.arcs

/-- The variables of a strongly connected component of the causal graph. -/
structure IsComponent (t : Task) (vs : List Nat) : Prop where
  lt : ∀ v ∈ vs, v < t.vars.size
  mem : ∀ v ∈ vs, ∀ w < t.vars.size, w ∈ vs ↔ t.Reaches v w ∧ t.Reaches w v

/-- The number of arcs from some variables to a variable. -/
def arcsFrom (t : Task) (vs : List Nat) (v : Nat) : Nat :=
  t.arcs.countP fun arc => arc.1 ∈ vs ∧ arc.2 = v

theorem arcsFrom_congr (h : ∀ v, v ∈ vs ↔ v ∈ ws) : t.arcsFrom vs w = t.arcsFrom ws w :=
  List.countP_congr fun arc _ => by simp only [h]

theorem arcsFrom_cons (hv : v ∉ vs) :
    t.arcsFrom (v :: vs) w = t.arcs.count (v, w) + t.arcsFrom vs w := by
  rw [arcsFrom, arcsFrom]
  induction t.arcs with
  | nil => rfl
  | cons arc arcs ih =>
      obtain ⟨u, u'⟩ := arc
      rw [List.countP_cons, List.countP_cons, List.count_cons, ih]
      by_cases hu : u = v
      · subst hu
        by_cases hw : u' = w
        · simp [hw, hv]
          omega
        · simp [hw]
      · simp [hu]
        omega

end Task

namespace CausalGraph

variable {t : Task} {g : CausalGraph} {position : Array Nat} {vs front rest : List Nat}
  {first i j u v w n : Nat}

/-! ### Numbers of arcs -/

theorem totalTo_occurrences (l : List Nat) (v : Nat) :
    totalTo id v (occurrences l) = l.count v := by
  have hsort : (l.mergeSort (· ≤ ·)).count v = l.count v := (List.mergeSort_perm l _).count_eq v
  rw [occurrences, ← hsort]
  clear hsort
  generalize l.mergeSort (· ≤ ·) = us
  induction us with
  | nil => rfl
  | cons u us ih =>
      rw [List.foldr_cons, List.count_cons, ← ih]
      split
      next w n rest hcounts =>
        rw [hcounts]
        split
        next hu =>
          subst hu
          simp only [Graph.WeightedEdges.totalTo_cons, id, beq_iff_eq]
          split <;> omega
        next => simp [Graph.WeightedEdges.totalTo_cons, Nat.add_comm]
      next hcounts => simp [hcounts, Graph.WeightedEdges.totalTo_cons]

theorem count_targetsOf : (targetsOf t v).count w = t.arcs.count (v, w) := by
  rw [targetsOf, List.count_reverse]
  induction t.arcs with
  | nil => rfl
  | cons arc arcs ih =>
      obtain ⟨u, u'⟩ := arc
      by_cases hu : u = v
      · simp [hu, List.count_cons, ih]
      · simp [hu, ih]

theorem total_arcs (h : vs.Nodup) :
    total (vs.map fun v => (targetsOf t v).count w) = t.arcsFrom vs w := by
  induction vs with
  | nil => simp [Task.arcsFrom]
  | cons v vs ih =>
      obtain ⟨hv, hc⟩ := List.nodup_cons.mp h
      rw [List.map_cons, total_cons, ih hc, count_targetsOf, Task.arcsFrom_cons hv]

/-! ### Edges inside a component -/

/-- A component has consecutive positions. -/
structure IsPlaced (size : Nat) (position : Array Nat) (first : Nat) (vs : List Nat) : Prop where
  member : ∀ i v, vs[i]? = some v → position.getD v 0 = first + i
  other : ∀ v < size, v ∉ vs → position.getD v 0 < first ∨ first + vs.length ≤ position.getD v 0

theorem isPlaced_positions {size : Nat} {order : List Nat} (hn : order.Nodup)
    (hmem : ∀ v, v ∈ order ↔ v < size) (horder : order = front ++ (vs ++ rest)) :
    IsPlaced size (Graph.positions size order) front.length vs := by
  have hposition : ∀ i v, order[i]? = some v → (Graph.positions size order).getD v 0 = i := by
    intro i v hi
    rw [Array.getD_eq_getD_getElem?, Graph.getElem?_positions hn hi
      ((hmem v).mp (List.mem_of_getElem? hi)), Option.getD_some]
  refine ⟨fun i v hi => hposition _ v ?_, fun v hv hc => ?_⟩
  · have hlt : i < vs.length := (List.getElem?_eq_some_iff.mp hi).1
    rw [horder, List.getElem?_append_right (Nat.le_add_right _ _), Nat.add_sub_cancel_left,
      List.getElem?_append_left hlt, hi]
  · obtain ⟨i, hi⟩ := List.getElem?_of_mem ((hmem v).mpr hv)
    rw [hposition i v hi]
    by_contra hbetween
    rw [not_or, Nat.not_lt, Nat.not_le] at hbetween
    rw [horder, List.getElem?_append_right hbetween.1, List.getElem?_append_left (by omega)] at hi
    exact hc (List.mem_of_getElem? hi)

/-- The edge inside a component that an arc makes. -/
def edgeWithin (g : CausalGraph) (position : Array Nat) (first length : Nat) :
    Nat × Nat → Option (Nat × Nat)
  | (target, arcs) =>
    if first ≤ position.getD target 0 && position.getD target 0 < first + length then
      some (position.getD target 0 - first, g.weightTo target arcs)
    else none

variable {size : Nat}

theorem edgesWithin_eq (h : IsPlaced size position first vs) (hne : vs ≠ []) :
    g.edgesWithin position vs = (vs.map fun v =>
      (g.weights.getD v []).filterMap (g.edgeWithin position first vs.length)).toArray := by
  have hfirst : position.getD (vs.headD 0) 0 = first := by
    cases vs with
    | nil => exact absurd rfl hne
    | cons v vs => exact h.member 0 v rfl
  rw [edgesWithin, hfirst]
  rfl

theorem edgeWithin_member (h : IsPlaced size position first vs) (hj : vs[j]? = some v) :
    g.edgeWithin position first vs.length (v, n) = some (j, g.weightTo v n) := by
  have hlt : j < vs.length := (List.getElem?_eq_some_iff.mp hj).1
  rw [edgeWithin, h.member j v hj, Nat.add_sub_cancel_left]
  simp [hlt]

theorem edgeWithin_other (h : IsPlaced size position first vs) (hv : v < size) (hc : v ∉ vs) :
    g.edgeWithin position first vs.length (v, n) = none := by
  have hother := h.other v hv hc
  rw [edgeWithin, if_neg]
  simp only [Bool.and_eq_true, decide_eq_true_eq]
  omega

/-- The weight of the edges to a member that is no goal variable is the number of their arcs. -/
theorem totalTo_edgesWithin (h : IsPlaced size position first vs) (hn : vs.Nodup)
    (hj : vs[j]? = some w) (hw : w ∉ g.goals) {targets : List (Nat × Nat)}
    (htargets : ∀ edge ∈ targets, edge.1 < size) :
    totalTo id j (targets.filterMap (g.edgeWithin position first vs.length)) =
      totalTo id w targets := by
  induction targets with
  | nil => rfl
  | cons edge targets ih =>
      obtain ⟨v, n⟩ := edge
      obtain ⟨hv, hrest⟩ := List.forall_mem_cons.mp htargets
      rw [Graph.WeightedEdges.totalTo_cons, ← ih hrest]
      by_cases hc : v ∈ vs
      · obtain ⟨i, hi⟩ := List.getElem?_of_mem hc
        rw [List.filterMap_cons_some (edgeWithin_member h hi), Graph.WeightedEdges.totalTo_cons]
        refine congrArg (· + _) ?_
        by_cases hij : i = j
        · subst hij
          obtain rfl := Option.some.inj (hi.symm.trans hj)
          rw [if_pos rfl, if_pos rfl, weightTo, if_neg hw]
        · have hvw : v ≠ w := by
            rintro rfl
            have hlt := (List.getElem?_eq_some_iff.mp hi).1
            exact hij ((List.getElem?_inj hlt hn).mp (hi.trans hj.symm))
          rw [if_neg hij, if_neg hvw]
      · have hvw : v ≠ w := fun heq => hc (heq ▸ List.mem_of_getElem? hj)
        rw [List.filterMap_cons_none (edgeWithin_other h hv hc), if_neg hvw, Nat.zero_add]

/-- The total weight of the edges to a member that is no goal variable. -/
theorem weightTo_edgesWithin (hall : ∀ arc ∈ t.arcs, arc.2 < t.vars.size)
    (h : IsPlaced t.vars.size position first vs) (hn : vs.Nodup) (hlt : ∀ v ∈ vs, v < t.vars.size)
    (hj : vs[j]? = some w) (hw : w ∉ (ofTask t).goals) :
    ((ofTask t).edgesWithin position vs).weightTo j = t.arcsFrom vs w := by
  have hne : vs ≠ [] := List.ne_nil_of_mem (List.mem_of_getElem? hj)
  rw [Graph.WeightedEdges.weightTo, edgesWithin_eq h hne, List.toList_toArray,
    Graph.WeightedEdges.totalTo_flatten, List.map_map, ← total_arcs hn]
  refine congrArg total (List.map_congr_left fun v hv => ?_)
  rw [Function.comp_apply, weights_ofTask (hlt v hv), totalTo_edgesWithin h hn hj hw,
    totalTo_occurrences]
  intro edge hedge
  exact hall _ (mem_targetsOf.mp (mem_occurrences.mp (List.mem_map_of_mem hedge)))

/-- The position of a goal variable in its component. -/
def IsGoalAt (g : CausalGraph) (vs : List Nat) (i : Nat) : Prop :=
  ∃ v ∈ g.goals, vs[i]? = some v

/-- Goal variables of a component with other members have heavy edges to them, and the other members
are light. -/
theorem separates_edgesWithin (hall : ∀ arc ∈ t.arcs, arc.2 < t.vars.size)
    (hc : vs ∈ (ofTask t).graph.components) (h : IsPlaced t.vars.size position first vs)
    (hlight : ∀ v ∈ vs, v ∉ (ofTask t).goals → t.arcsFrom vs v < lateWeight)
    (hv : v ∈ vs) (hgoal : v ∉ (ofTask t).goals) :
    ((ofTask t).edgesWithin position vs).Separates ((ofTask t).IsGoalAt vs) := by
  have hpartition := (ofTask t).graph.isOrderedPartition_components
  have hn : vs.Nodup := (List.nodup_flatten.mp hpartition.nodup).1 vs hc
  have hlt : ∀ v ∈ vs, v < t.vars.size := fun v hv =>
    size_graph_ofTask t ▸ (hpartition.mem v).mp (List.mem_flatten.mpr ⟨vs, hc, hv⟩)
  have hedges := edgesWithin_eq (g := ofTask t) h (List.ne_nil_of_mem hv)
  constructor
  · intro j _ ⟨w, hw, hj⟩
    have hvw : v ≠ w := fun heq => hgoal (heq ▸ hw)
    obtain ⟨u, hu, hedge⟩ := Graph.exists_edge_of_mem_component hc hv (List.mem_of_getElem? hj) hvw
    rw [Graph.Edge, mem_successorsOf_ofTask] at hedge
    have htarget := mem_occurrences.mpr (mem_targetsOf.mpr hedge.2)
    obtain ⟨⟨w', n⟩, hmem, rfl⟩ := List.mem_map.mp htarget
    refine ⟨_, hedges ▸ List.mem_toArray.mpr (List.mem_map_of_mem hu), _, List.mem_filterMap.mpr
      ⟨(w', n), weights_ofTask hedge.1 ▸ hmem, edgeWithin_member h hj⟩, ?_⟩
    rw [weightTo, if_pos hw]
    exact Nat.le_add_right _ _
  · intro j hj hlate
    rw [hedges, List.size_toArray, List.length_map] at hj
    have hget : vs[j]? = some vs[j] := List.getElem?_eq_getElem hj
    have hw : vs[j] ∉ (ofTask t).goals := fun hw => hlate ⟨vs[j], hw, hget⟩
    rw [weightTo_edgesWithin hall h hn hlt hget hw]
    exact hlight _ (List.getElem_mem hj) hw

/-- Inside a component with few arcs to its other members, goal variables come last. -/
theorem sublist_orderWithin (hall : ∀ arc ∈ t.arcs, arc.2 < t.vars.size)
    (hc : vs ∈ (ofTask t).graph.components) (h : IsPlaced t.vars.size position first vs)
    (hlight : ∀ v ∈ vs, v ∉ (ofTask t).goals → t.arcsFrom vs v < lateWeight)
    (hv : v ∈ vs) (hgoal : v ∉ (ofTask t).goals) (hw : w ∈ vs) (hwgoal : w ∈ (ofTask t).goals) :
    [v, w].Sublist ((ofTask t).orderWithin position vs) := by
  have hvw : v ≠ w := fun heq => hgoal (heq ▸ hwgoal)
  have hseparates := separates_edgesWithin hall hc h hlight hv hgoal
  have hsize : ((ofTask t).edgesWithin position vs).size = vs.length := by simp [edgesWithin]
  have hmem : ∀ {i u}, vs[i]? = some u → i ∈ ((ofTask t).edgesWithin position vs).order := by
    intro i u hi
    rw [(Graph.WeightedEdges.perm_order _).mem_iff, hsize, List.mem_range]
    exact (List.getElem?_eq_some_iff.mp hi).1
  obtain ⟨i, hi⟩ := List.getElem?_of_mem hv
  obtain ⟨j, hj⟩ := List.getElem?_of_mem hw
  have hij : i ≠ j := by
    rintro rfl
    exact hvw (Option.some.inj (hi.symm.trans hj))
  have hnot : ¬ ((ofTask t).IsGoalAt vs j → (ofTask t).IsGoalAt vs i) := by
    intro himp
    obtain ⟨u, hu, hiu⟩ := himp ⟨w, hwgoal, hj⟩
    exact hgoal (Option.some.inj (hi.symm.trans hiu) ▸ hu)
  have hsublist := pair_sublist_of_pairwise hseparates.pairwise_order (hmem hi) (hmem hj) hij hnot
  unfold orderWithin
  split
  next single => exact absurd ((List.mem_singleton.mp hv).trans (List.mem_singleton.mp hw).symm) hvw
  next => simpa [hi, hj] using hsublist.map (vs.toArray.getD · 0)

/-! ### The order -/

theorem reaches_of_graph (h : (ofTask t).graph.Reaches v w) : t.Reaches v w :=
  Relation.ReflTransGen.mono (fun _ _ hedge => (mem_successorsOf_ofTask.mp hedge).2) v w h

theorem reaches_iff (hall : ∀ arc ∈ t.arcs, arc.1 < t.vars.size) :
    (ofTask t).graph.Reaches v w ↔ t.Reaches v w := by
  refine ⟨reaches_of_graph, fun h => ?_⟩
  exact Relation.ReflTransGen.mono
    (fun _ _ harc => mem_successorsOf_ofTask.mpr ⟨hall _ harc, harc⟩) v w h

theorem exists_mem_components (hv : v < t.vars.size) :
    ∃ vs ∈ (ofTask t).graph.components, v ∈ vs := by
  rw [← size_graph_ofTask t] at hv
  exact List.mem_flatten.mp (((ofTask t).graph.isOrderedPartition_components.mem v).mpr hv)

/-- The variables of a component of the causal graph. -/
theorem mem_component_iff (hall : ∀ arc ∈ t.arcs, arc.1 < t.vars.size) {ws : List Nat}
    (hc : t.IsComponent vs) (hd : ws ∈ (ofTask t).graph.components) (hvc : v ∈ vs) (hvd : v ∈ ws)
    (w : Nat) : w ∈ ws ↔ w ∈ vs := by
  have hpartition := (ofTask t).graph.isOrderedPartition_components
  have hconnected := (ofTask t).graph.areConnected_components
  constructor
  · intro hw
    have hlt : w < t.vars.size :=
      size_graph_ofTask t ▸ (hpartition.mem w).mp (List.mem_flatten.mpr ⟨ws, hd, hw⟩)
    exact (hc.mem v hvc w hlt).mpr ⟨reaches_of_graph (hconnected.reaches hd hvd hw),
      reaches_of_graph (hconnected.reaches hd hw hvd)⟩
  · intro hw
    have hlt := hc.lt w hw
    obtain ⟨hvw, hwv⟩ := (hc.mem v hvc w hlt).mp hw
    exact hpartition.mem_of_mutual hd hvd (size_graph_ofTask t ▸ hlt)
      ((reaches_iff hall).mpr hvw) ((reaches_iff hall).mpr hwv)

/-- An arc between different components leads forward. -/
theorem sublist_ordering_of_arc (harc : (v, w) ∈ t.arcs) (hv : v < t.vars.size)
    (hw : w < t.vars.size) (hback : ¬ t.Reaches w v) : [v, w].Sublist (ofTask t).ordering := by
  have hpartition := (ofTask t).graph.isOrderedPartition_components
  obtain ⟨vs, hc, hvc⟩ := exists_mem_components hv
  obtain ⟨front, rest, hcs⟩ := List.append_of_mem hc
  have hwc : w ∉ vs := fun hwc =>
    hback (reaches_of_graph ((ofTask t).graph.areConnected_components.reaches hc hwc hvc))
  have hwrest : w ∈ rest.flatten :=
    (hpartition.mem_of_edge hcs hvc (mem_successorsOf_ofTask.mpr ⟨hv, harc⟩)
      (size_graph_ofTask t ▸ hw)).resolve_left hwc
  obtain ⟨ws, hd, hwd⟩ := List.mem_flatten.mp hwrest
  rw [ordering]
  generalize Graph.positions _ _ = position
  rw [hcs, List.flatMap_append, List.flatMap_cons]
  refine .trans ?_ (List.sublist_append_right _ _)
  have hfirst : [v].Sublist ((ofTask t).orderWithin position vs) :=
    List.singleton_sublist.mpr ((perm_orderWithin _ position vs).mem_iff.mpr hvc)
  have hsecond : [w].Sublist (rest.flatMap ((ofTask t).orderWithin position)) :=
    List.singleton_sublist.mpr (List.mem_flatMap.mpr
      ⟨ws, hd, (perm_orderWithin _ position ws).mem_iff.mpr hwd⟩)
  exact hfirst.append hsecond

/-- The goal variables of a component come after its other variables if these are light. -/
theorem sublist_ordering_of_goal (hall : ∀ arc ∈ t.arcs, arc.1 < t.vars.size ∧ arc.2 < t.vars.size)
    (hc : t.IsComponent vs)
    (hlight : ∀ v ∈ vs, v ∉ (ofTask t).goals → t.arcsFrom vs v < lateWeight)
    (hv : v ∈ vs) (hgoal : v ∉ (ofTask t).goals) (hw : w ∈ vs) (hwgoal : w ∈ (ofTask t).goals) :
    [v, w].Sublist (ofTask t).ordering := by
  have hpartition := (ofTask t).graph.isOrderedPartition_components
  obtain ⟨ws, hd, hvd⟩ := exists_mem_components (hc.lt v hv)
  have hmem := mem_component_iff (fun arc h => (hall arc h).1) hc hd hv hvd
  obtain ⟨front, rest, hcs⟩ := List.append_of_mem hd
  have horder : (ofTask t).graph.components.flatten =
      front.flatten ++ (ws ++ rest.flatten) := by
    rw [hcs, List.flatten_append, List.flatten_cons]
  have hplaced := isPlaced_positions hpartition.nodup
    (fun u => size_graph_ofTask t ▸ hpartition.mem u) horder
  have hsize : (ofTask t).weights.size = t.vars.size := by simp [ofTask, size_foldl_arcs]
  have hsublist := sublist_orderWithin (fun arc h => (hall arc h).2) hd hplaced
    (fun u hu hugoal => Task.arcsFrom_congr hmem ▸ hlight u ((hmem u).mp hu) hugoal)
    hvd hgoal ((hmem w).mpr hw) hwgoal
  rw [ordering, hsize]
  exact hsublist.trans (List.sublist_flatten_of_mem (List.mem_map_of_mem hd))

/-- The order lists each variable once. An arc leads forward in it unless its ends are in the same
strongly connected component of the causal graph. If the arcs from inside a component to each of its
variables outside the goal are few, the goal variables of the component come after these. No weight
is ever taken off a lighter vertex. -/
theorem ordering_follows_causal_graph (t : Task) :
    (ofTask t).ordering.Perm (List.range t.vars.size) ∧
    (∀ v w, (v, w) ∈ t.arcs → v < t.vars.size → w < t.vars.size → ¬ t.Reaches w v →
      [v, w].Sublist (ofTask t).ordering) ∧
    ((∀ arc ∈ t.arcs, arc.1 < t.vars.size ∧ arc.2 < t.vars.size) → ∀ vs, t.IsComponent vs →
      (∀ v ∈ vs, v ∉ t.goal.map (·.var) → t.arcsFrom vs v < lateWeight) →
      ∀ v ∈ vs, v ∉ t.goal.map (·.var) → ∀ w ∈ vs, w ∈ t.goal.map (·.var) →
        [v, w].Sublist (ofTask t).ordering) ∧
    ∀ edges : Graph.WeightedEdges, edges.checkedOrder = some edges.order := by
  refine ⟨?_, ?_, ?_, Graph.WeightedEdges.checkedOrder_eq⟩
  · exact size_graph_ofTask t ▸ perm_ordering (ofTask t)
  · intro v w harc hv hw hback
    exact sublist_ordering_of_arc harc hv hw hback
  · intro hall vs hc hlight v hv hgoal w hw hwgoal
    exact sublist_ordering_of_goal hall hc hlight hv hgoal hw hwgoal

/-- Two variables on a cycle, with two arcs to the first one, and a third variable before them. The
goal is about the second one. -/
def cyclic : Task where
  vars := #[⟨2, none, ["off", "on"]⟩, ⟨2, none, ["cold", "hot"]⟩, ⟨2, none, ["out", "in"]⟩]
  init := #[0, 0, 0]
  goal := [⟨1, 1⟩]
  operators := [
    ⟨"start", [⟨1, 0⟩, ⟨2, 0⟩], [⟨0, some 0, 1, []⟩], 1⟩,
    ⟨"stop", [⟨1, 1⟩], [⟨0, some 1, 0, []⟩], 1⟩,
    ⟨"heat", [⟨0, 1⟩], [⟨1, some 0, 1, []⟩], 1⟩]

theorem arcs_cyclic : cyclic.arcs = [(1, 0), (2, 0), (1, 0), (0, 1)] := by
  decide

theorem not_reaches_cyclic (hv : v ≠ 2) : ¬ cyclic.Reaches v 2 := by
  intro h
  rcases Relation.ReflTransGen.cases_tail h with heq | ⟨u, -, harc⟩
  · exact hv heq.symm
  · rw [arcs_cyclic] at harc
    simp at harc

theorem isComponent_cyclic : cyclic.IsComponent [0, 1] where
  lt := by decide
  mem v hv w hw := by
    have hjoined : ∀ a ∈ [0, 1], ∀ b ∈ [0, 1], cyclic.Reaches a b := by
      intro a ha b hb
      rcases List.mem_pair.mp ha with rfl | rfl
      · rcases List.mem_pair.mp hb with rfl | rfl
        · exact .refl
        · exact .single (by decide)
      · rcases List.mem_pair.mp hb with rfl | rfl
        · exact .single (by decide)
        · exact .refl
    refine ⟨fun hwc => ⟨hjoined v hv w hwc, hjoined w hwc v hv⟩, fun ⟨hvw, _⟩ => ?_⟩
    rw [List.mem_pair] at hv ⊢
    have hw2 : w ≠ 2 := by
      rintro rfl
      exact not_reaches_cyclic (by omega) hvw
    change w < 3 at hw
    omega

theorem cyclic_ordering : [2, 0].Sublist (ofTask cyclic).ordering ∧
    [0, 1].Sublist (ofTask cyclic).ordering := by
  obtain ⟨-, hforward, hlast, -⟩ := ordering_follows_causal_graph cyclic
  have hforeign : ¬ cyclic.Reaches 0 2 := not_reaches_cyclic (by decide)
  refine ⟨hforward 2 0 (by decide) (by decide) (by decide) hforeign, ?_⟩
  exact hlast (by decide) [0, 1] isComponent_cyclic (by decide) 0 (by decide) (by decide) 1
    (by decide) (by decide)

end CausalGraph
end FiniteDomain
end FinitePlanning
