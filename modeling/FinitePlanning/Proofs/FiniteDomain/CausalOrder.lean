import Mathlib.Data.List.Perm.Basic
import FinitePlanning.Proofs.FiniteDomain.Renumbering
import FinitePlanning.Proofs.Graph.WeightedOrder
import FinitePlanning.Proofs.Pruning.Operators

/-!
The variables along the causal graph. Each of them has one place in the order, and with a variable
from which the goal can be reached the order keeps all those on which it depends.
-/

namespace FinitePlanning
namespace FiniteDomain

namespace CausalGraph

variable {t : Task} {v w : Nat}

/-! ### The order -/

theorem perm_orderWithin (g : CausalGraph) (position : Array Nat) (block : List Nat) :
    (g.orderWithin position block).Perm block := by
  unfold orderWithin
  split
  next => exact .refl _
  next =>
    have hsize : (g.edgesWithin position block).size = block.length := by simp [edgesWithin]
    have hperm := (Graph.WeightedEdges.perm_order (g.edgesWithin position block)).map
      (block.toArray.getD · 0)
    rw [hsize] at hperm
    refine hperm.trans (.of_eq (List.ext_getElem? fun i => ?_))
    by_cases hi : i < block.length
    · simp [hi]
    · simp [hi]

/-- Each variable occurs once in the order. -/
theorem perm_ordering (g : CausalGraph) : g.ordering.Perm (List.range g.graph.size) := by
  have hpartition := g.graph.isOrderedPartition_components
  have hblocks : g.ordering.Perm g.graph.components.flatten := by
    rw [ordering, ← List.flatMap_id]
    exact List.Perm.flatMap_left _ fun block _ => perm_orderWithin g _ block
  refine hblocks.trans ((List.perm_ext_iff_of_nodup hpartition.nodup List.nodup_range).mpr fun v => ?_)
  rw [hpartition.mem, List.mem_range]

/-! ### Arcs -/

theorem mem_occurrences {l : List Nat} : v ∈ (occurrences l).map (·.1) ↔ v ∈ l := by
  have hsort : v ∈ l.mergeSort (· ≤ ·) ↔ v ∈ l := List.mem_mergeSort
  rw [occurrences, ← hsort]
  clear hsort
  generalize l.mergeSort (· ≤ ·) = us
  induction us with
  | nil => rfl
  | cons u us ih =>
      rw [List.foldr_cons, List.mem_cons]
      refine Iff.trans ?_ (or_congr_right ih)
      split
      next w n rest hcounts =>
        rw [hcounts]
        split
        next hw => simp [hw]
        next => simp
      next hcounts => simp [hcounts]

/-- The targets of the arcs from a variable, as often as they occur. -/
def targetsOf (t : Task) (v : Nat) : List Nat :=
  ((t.arcs.filter (·.1 = v)).map (·.2)).reverse

theorem getElem?_weights_ofTask (t : Task) (v : Nat) : (ofTask t).weights[v]? =
    if v < t.vars.size then some (occurrences (targetsOf t v)) else none := by
  have hfold : ∀ (arcs : List Arc) (ws : List Nat),
      arcs.foldl (fun ws arc => arc.2 :: ws) ws = (arcs.map (·.2)).reverse ++ ws := by
    intro arcs
    induction arcs with
    | nil => exact fun _ => rfl
    | cons arc arcs ih => exact fun ws => (ih _).trans (by simp)
  rw [ofTask, Array.getElem?_map]
  refine (congrArg (Option.map occurrences)
    (getElem?_foldl_modify (·.1) (fun arc => (arc.2 :: ·)) t.arcs _ v)).trans ?_
  by_cases hv : v < t.vars.size
  · simp [hv, hfold, targetsOf]
  · simp [hv]

theorem weights_ofTask (hv : v < t.vars.size) :
    (ofTask t).weights.getD v [] = occurrences (targetsOf t v) := by
  rw [Array.getD_eq_getD_getElem?, getElem?_weights_ofTask, if_pos hv, Option.getD_some]

theorem mem_targetsOf : w ∈ targetsOf t v ↔ (v, w) ∈ t.arcs := by
  simp [targetsOf]

theorem mem_successorsOf_ofTask :
    w ∈ (ofTask t).graph.successorsOf v ↔ v < t.vars.size ∧ (v, w) ∈ t.arcs := by
  rw [Graph.successorsOf, graph, Array.getD_eq_getD_getElem?, Array.getElem?_map,
    getElem?_weights_ofTask]
  split
  next hv => exact mem_occurrences.trans (mem_targetsOf.trans (and_iff_right hv).symm)
  next hv => exact iff_of_false List.not_mem_nil fun h => hv h.1

theorem mem_arcs_of_operator {o : Operator} (ho : o ∈ t.operators) {e : Effect}
    (he : e ∈ o.effects) {f : Fact} (hf : f ∈ o.preconditions ∨ f ∈ e.condition)
    (hne : f.var ≠ e.var) : (f.var, e.var) ∈ t.arcs := by
  refine List.mem_filter.mpr ⟨List.mem_append_left _ (List.mem_flatMap.mpr ⟨o, ho, ?_⟩),
    decide_eq_true hne⟩
  refine List.mem_flatMap.mpr ⟨e, he, List.mem_map.mpr ⟨f.var, ?_, rfl⟩⟩
  rw [List.mem_append, List.mem_append]
  rcases hf with hf | hf
  · rcases Operator.mem_preconditions.mp hf with hf | ⟨d, hd, hf⟩
    · exact .inl (.inl (List.mem_map_of_mem hf))
    · obtain ⟨b, hb, rfl⟩ := Option.map_eq_some_iff.mp hf
      exact .inl (.inr (List.mem_map.mpr ⟨d, List.mem_filter.mpr ⟨hd, by rw [hb]; rfl⟩, rfl⟩))
  · exact .inr (List.mem_map_of_mem hf)

theorem mem_arcs_of_rule {r : Rule} (hr : r ∈ t.rules) {f : Fact} (hf : f ∈ r.condition)
    (hne : f.var ≠ r.effect.var) : (f.var, r.effect.var) ∈ t.arcs :=
  List.mem_filter.mpr ⟨List.mem_append_right _ (List.mem_flatMap.mpr
    ⟨r, hr, List.mem_map.mpr ⟨f, hf, rfl⟩⟩), decide_eq_true hne⟩

/-! ### Relevant variables -/

/-- The variables from which the goal can be reached. -/
def IsRelevant (t : Task) (v : Nat) : Prop :=
  (ofTask t).towardGoals.isFresh v = false

theorem isRelevant_goal {f : Fact} (hf : f ∈ t.goal) : IsRelevant t f.var :=
  Graph.isFresh_traverse_root (List.mem_map_of_mem hf)

theorem IsRelevant.of_arc (hw : IsRelevant t w) (h : (v, w) ∈ t.arcs) (hv : v < t.vars.size)
    (hlt : w < t.vars.size) : IsRelevant t v := by
  have hsize := size_graph_ofTask t
  refine Graph.isFresh_traverse_successor ?_ hw ?_
  · rw [Graph.size_reverse, hsize]
    exact hlt
  · exact Graph.mem_successorsOf_reverse (hsize ▸ hv) (hsize ▸ hlt)
      (mem_successorsOf_ofTask.mpr ⟨hv, h⟩)

end CausalGraph

namespace Task

variable {t : Task} {order : List Nat} {reorder onlyRelevant : Bool}

/-- A list of variables without repetition that has all variables of the goal, and with a variable
all those on which its operators and rules depend. -/
structure IsSelfContained (t : Task) (order : List Nat) : Prop where
  nodup : order.Nodup
  lt : ∀ v ∈ order, v < t.vars.size
  goal : ∀ f ∈ t.goal, f.var ∈ order
  operators : ∀ o ∈ t.operators, ∀ e ∈ o.effects, e.var ∈ order →
    ∀ f, f ∈ o.preconditions ∨ f ∈ e.condition → f.var ∈ order
  rules : ∀ r ∈ t.rules, r.effect.var ∈ order → ∀ f ∈ r.condition, f.var ∈ order

/-- Unless variables are left out, the new order is a permutation of the variables. -/
theorem perm_variableOrder (t : Task) (reorder : Bool) :
    (t.variableOrder reorder false).Perm (List.range t.vars.size) := by
  have hordering := (CausalGraph.ofTask t).perm_ordering
  rw [CausalGraph.size_graph_ofTask] at hordering
  rw [variableOrder]
  cases reorder with
  | false => exact .refl _
  | true => exact hordering

theorem mem_variableOrder {v : Nat} : v ∈ t.variableOrder reorder onlyRelevant ↔
    v < t.vars.size ∧ (onlyRelevant = true → CausalGraph.IsRelevant t v) := by
  have hall := (perm_variableOrder t reorder).mem_iff (a := v)
  rw [List.mem_range] at hall
  cases onlyRelevant with
  | false => exact hall.trans (and_iff_left nofun).symm
  | true =>
      refine List.mem_filter.trans (and_congr hall ?_)
      simp [CausalGraph.IsRelevant]

theorem isSelfContained_variableOrder (hw : t.IsWellFormed) (reorder onlyRelevant : Bool) :
    t.IsSelfContained (t.variableOrder reorder onlyRelevant) where
  nodup := by
    have hall := (perm_variableOrder t reorder).nodup_iff.mpr List.nodup_range
    cases onlyRelevant with
    | false => exact hall
    | true => exact hall.filter _
  lt v hv := (mem_variableOrder.mp hv).1
  goal f hf := mem_variableOrder.mpr
    ⟨hasFact_lt (hw.goal f hf), fun _ => CausalGraph.isRelevant_goal hf⟩
  operators o ho e he hvar f hf := by
    obtain ⟨hlt, hrelevant⟩ := mem_variableOrder.mp hvar
    have hfits := hw.operators o ho
    have hflt : f.var < t.vars.size := hf.elim (hw.precondition_lt ho) fun hf =>
      hasFact_lt (hfits.condition e he f hf)
    by_cases hne : f.var = e.var
    · exact hne ▸ hvar
    · exact mem_variableOrder.mpr ⟨hflt, fun honly =>
        (hrelevant honly).of_arc (CausalGraph.mem_arcs_of_operator ho he hf hne) hflt hlt⟩
  rules r hr hvar f hf := by
    obtain ⟨hlt, hrelevant⟩ := mem_variableOrder.mp hvar
    obtain ⟨_, -, hfits⟩ := (hw.rules r hr).layer
    have hflt : f.var < t.vars.size := hasFact_lt (hfits f hf).valid
    by_cases hne : f.var = r.effect.var
    · exact hne ▸ hvar
    · exact mem_variableOrder.mpr ⟨hflt, fun honly =>
        (hrelevant honly).of_arc (CausalGraph.mem_arcs_of_rule hr hf hne) hflt hlt⟩

end Task
end FiniteDomain
end FinitePlanning
