import FinitePlanning.FiniteDomain.VariableOrder
import FinitePlanning.Proofs.FiniteDomain.Evaluation
import FinitePlanning.Proofs.Graph.Components
import FinitePlanning.Proofs.Pruning.Values

/-!
Tasks stay well formed when their variables are put into another order and some of them are left
out.
-/

namespace FinitePlanning
namespace FiniteDomain

namespace Renumbering

variable {size v i : Nat} {order : List Nat}

/-- The number of a variable is one of its positions in the order. -/
theorem mem_of_getD_foldl_numbers (l : List (Nat × Nat)) (ns : Array (Option Nat))
    (h : (l.foldl (fun ns (v, i) => ns.setIfInBounds v (some i)) ns).getD v none = some i) :
    (v, i) ∈ l ∨ ns.getD v none = some i := by
  induction l generalizing ns with
  | nil => exact .inr h
  | cons p l ih =>
      rcases ih _ h with hmem | hget
      · exact .inl (List.mem_cons_of_mem p hmem)
      · dsimp only at hget
        by_cases hv : p.1 = v ∧ p.1 < ns.size
        · rw [Array.getD_eq_getD_getElem?, Array.getElem?_setIfInBounds, if_pos hv.1,
            if_pos hv.2] at hget
          obtain rfl := Option.some.inj hget
          exact .inl (hv.1 ▸ List.mem_cons_self)
        · refine .inr ?_
          rw [Array.getD_eq_getD_getElem?, Array.getElem?_setIfInBounds] at hget
          rw [Array.getD_eq_getD_getElem?]
          split at hget
          next he =>
            rw [if_neg fun hlt => hv ⟨he, hlt⟩] at hget
            cases hget
          next => exact hget

theorem getElem?_of_number? (h : (ofList size order).number? v = some i) : order[i]? = some v := by
  rcases mem_of_getD_foldl_numbers order.zipIdx (Array.replicate size none) h with hmem | hget
  · exact List.mem_zipIdx_iff_getElem?.mp hmem
  · rw [Array.getD_eq_getD_getElem?, Array.getElem?_replicate] at hget
    split at hget <;> cases hget

end Renumbering

namespace Task

variable {t : Task} {order : List Nat} {f g : Fact} {i v : Nat}

theorem getElem?_vars_withOrder (h : order[i]? = some v) :
    (t.withOrder order).vars[i]? = some (t.vars.getD v default) := by
  simp [withOrder, h]

theorem layerOf?_withOrder (h : order[i]? = some v) :
    (t.withOrder order).layerOf? i = t.layerOf? v := by
  rw [layerOf?, getElem?_vars_withOrder h, layerOf?, Array.getD_eq_getD_getElem?]
  cases t.vars[v]? <;> rfl

theorem hasFact_withOrder (h : order[i]? = some v) (hf : t.hasFact ⟨v, f.value⟩ = true) :
    (t.withOrder order).hasFact ⟨i, f.value⟩ = true := by
  obtain ⟨x, hx, hlt⟩ := hasFact_iff.mp hf
  refine hasFact_iff.mpr ⟨x, ?_, hlt⟩
  rw [getElem?_vars_withOrder h]
  simp [hx]

/-- What becomes of a fact. -/
theorem of_fact?_eq_some (h : (Renumbering.ofList t.vars.size order).fact? f = some g) :
    order[g.var]? = some f.var ∧ g.value = f.value := by
  obtain ⟨i, hi, rfl⟩ := Option.map_eq_some_iff.mp h
  exact ⟨Renumbering.getElem?_of_number? hi, rfl⟩

theorem hasFact_fact? (hf : t.hasFact f = true)
    (h : (Renumbering.ofList t.vars.size order).fact? f = some g) :
    (t.withOrder order).hasFact g = true := by
  obtain ⟨i, hi, rfl⟩ := Option.map_eq_some_iff.mp h
  exact hasFact_withOrder (Renumbering.getElem?_of_number? hi) hf

theorem hasFact_facts {fs : List Fact} (hfs : ∀ f ∈ fs, t.hasFact f = true)
    (hg : g ∈ (Renumbering.ofList t.vars.size order).facts fs) :
    (t.withOrder order).hasFact g = true := by
  obtain ⟨f, hf, h⟩ := List.mem_filterMap.mp hg
  exact hasFact_fact? (hfs f hf) h

theorem OperatorFits.operator? {o o' : Operator} (ho : t.OperatorFits o)
    (h : (Renumbering.ofList t.vars.size order).operator? o = some o') :
    (t.withOrder order).OperatorFits o' := by
  rw [Renumbering.operator?] at h
  split at h
  next => cases h
  next =>
    obtain rfl := Option.some.inj h
    have heffect : ∀ e' ∈ (Operator.ofParts o.name
        ((Renumbering.ofList t.vars.size order).facts o.prevail)
        (o.effects.filterMap (Renumbering.ofList t.vars.size order).effect?) o.cost).effects,
        ∃ e ∈ o.effects, order[e'.var]? = some e.var ∧ e'.before = e.before ∧ e'.after = e.after ∧
          ∀ f ∈ e'.condition, (t.withOrder order).hasFact f = true := by
      intro e' he'
      obtain ⟨d, hd, rfl⟩ := List.mem_map.mp (mem_orderedSet.mp he')
      obtain ⟨e, he, hd⟩ := List.mem_filterMap.mp hd
      obtain ⟨i, hi, rfl⟩ := Option.map_eq_some_iff.mp hd
      exact ⟨e, he, Renumbering.getElem?_of_number? hi, rfl, rfl, fun f hf =>
        hasFact_facts (ho.condition e he) (mem_orderedSet.mp hf)⟩
    refine ⟨fun f hf => hasFact_facts ho.prevail (mem_orderedSet.mp hf), fun e' he' => ?_,
      fun e' he' => ?_, fun e' he' f hf => ?_, fun e' he' => ?_⟩
    · obtain ⟨-, -, -, -, -, hcondition⟩ := heffect e' he'
      exact hcondition
    · obtain ⟨e, he, hvar, -, hafter, -⟩ := heffect e' he'
      rw [Effect.afterFact, hafter]
      exact hasFact_withOrder (f := e.afterFact) hvar (ho.after e he)
    · obtain ⟨e, he, hvar, hbefore, -⟩ := heffect e' he'
      obtain ⟨b, hb, rfl⟩ := Option.map_eq_some_iff.mp hf
      exact hasFact_withOrder (f := ⟨e.var, b⟩) hvar (ho.before e he ⟨e.var, b⟩
        (Option.map_eq_some_iff.mpr ⟨b, hbefore ▸ hb, rfl⟩))
    · obtain ⟨e, he, hvar, -⟩ := heffect e' he'
      exact (layerOf?_withOrder hvar).trans (ho.basic e he)

theorem RuleFits.rule? {r r' : Rule} (hr : t.RuleFits r)
    (h : (Renumbering.ofList t.vars.size order).rule? r = some r') :
    (t.withOrder order).RuleFits r' ∧ r'.effect.value = r.effect.value := by
  obtain ⟨hvalid, layer, hlayer, hfits⟩ := hr
  obtain ⟨effect, heffect, rfl⟩ := Option.map_eq_some_iff.mp h
  obtain ⟨hvar, hvalue⟩ := of_fact?_eq_some heffect
  refine ⟨⟨hasFact_fact? hvalid heffect, layer, (layerOf?_withOrder hvar).trans hlayer,
    fun g hg => ?_⟩, hvalue⟩
  obtain ⟨f, hf, hfg⟩ := List.mem_filterMap.mp (mem_orderedSet.mp hg)
  obtain ⟨hgvar, hgvalue⟩ := of_fact?_eq_some hfg
  have hfit := hfits f hf
  exact ⟨hasFact_fact? hfit.valid hfg,
    fun below hb => hfit.le below ((layerOf?_withOrder hgvar).symm.trans hb),
    fun below hb hfalse => hfit.lt below ((layerOf?_withOrder hgvar).symm.trans hb)
      (hgvalue.symm.trans hfalse)⟩

theorem isWellFormed_withOrder (hw : t.IsWellFormed) (hr : t.ResetsToOne)
    (horder : ∀ v ∈ order, v < t.vars.size) :
    (t.withOrder order).IsWellFormed ∧ (t.withOrder order).ResetsToOne := by
  have hinit : ∀ i : Nat, (t.withOrder order).init[i]? = order[i]?.map t.initialValue := by
    intro i
    rw [withOrder, ← Array.getElem?_toList, List.toList_toArray, List.getElem?_map]
    rfl
  refine ⟨⟨fun x hx => ?_, ?_, fun i value hi => ?_, fun m hm f hf => ?_, fun f hf => ?_,
    fun o ho => ?_, fun r hrule => ?_⟩, fun i hd => ?_, fun r hrule => ?_⟩
  · obtain ⟨v, hv, rfl⟩ := List.mem_map.mp hx
    have hlt := horder v hv
    exact hw.vars _ (by simp [Array.getD, hlt])
  · simp [withOrder]
  · obtain ⟨v, hv, rfl⟩ := Option.map_eq_some_iff.mp (hinit i ▸ hi)
    have hlt : v < t.init.size := hw.init_size ▸ horder v (List.mem_of_getElem? hv)
    have hget : t.init[v]? = some (t.initialValue v) := by simp [initialValue, hlt]
    exact hasFact_withOrder (f := ⟨v, t.initialValue v⟩) hv (hw.init v _ hget)
  · obtain ⟨m', hm', hm⟩ := List.mem_filterMap.mp hm
    rw [Renumbering.mutex?] at hm
    split at hm
    · obtain rfl := Option.some.inj hm
      exact hasFact_facts (hw.mutexes m' hm') (mem_orderedSet.mp hf)
    · cases hm
  · exact hasFact_facts hw.goal (List.mem_mergeSort.mp hf)
  · obtain ⟨o', ho', ho⟩ := List.mem_filterMap.mp ho
    exact (hw.operators o' ho').operator? ho
  · obtain ⟨r', hr', hrule⟩ := List.mem_filterMap.mp hrule
    exact ((hw.rules r' hr').rule? hrule).1
  · cases hi : order[i]? with
    | none =>
        have hnone : (t.withOrder order).layerOf? i = none := by simp [layerOf?, withOrder, hi]
        rw [IsDerived, hnone] at hd
        cases hd
    | some v =>
        rw [IsDerived, layerOf?_withOrder hi] at hd
        rw [initialValue, Array.getD_eq_getD_getElem?, hinit, hi]
        exact hr.initial v hd
  · obtain ⟨r', hr', hrule⟩ := List.mem_filterMap.mp hrule
    rw [((hw.rules r' hr').rule? hrule).2]
    exact hr.rules r' hr'

end Task

/-! ### The order along the causal graph -/

namespace CausalGraph

variable {v : Nat}

theorem size_foldl_arcs (arcs : List Arc) (targets : Array (List Nat)) :
    (arcs.foldl (fun targets (v, w) => targets.modify v (w :: ·)) targets).size =
      targets.size := by
  induction arcs generalizing targets with
  | nil => rfl
  | cons arc arcs ih => exact (ih _).trans Array.size_modify

theorem size_graph_ofTask (t : Task) : (ofTask t).graph.size = t.vars.size := by
  simp [ofTask, graph, Graph.size, size_foldl_arcs]

theorem lt_of_mem_orderWithin {g : CausalGraph} {position : Array Nat} {block : List Nat}
    (hne : block ≠ []) (hlt : ∀ w ∈ block, w < g.graph.size)
    (h : v ∈ g.orderWithin position block) : v < g.graph.size := by
  unfold orderWithin at h
  split at h
  next => exact hlt v h
  next =>
    obtain ⟨i, -, rfl⟩ := List.mem_map.mp h
    rw [Array.getD_eq_getD_getElem?, List.getElem?_toArray]
    cases hi : block[i]? with
    | some w => exact hlt w (List.mem_of_getElem? hi)
    | none =>
        obtain ⟨w, hw⟩ := List.exists_mem_of_ne_nil block hne
        exact Nat.zero_lt_of_lt (hlt w hw)

theorem lt_of_mem_ordering {g : CausalGraph} (h : v ∈ g.ordering) : v < g.graph.size := by
  obtain ⟨c, hc, hv⟩ := List.mem_flatMap.mp h
  have hpartition := g.graph.isOrderedPartition_components
  exact lt_of_mem_orderWithin (hpartition.nonempty c hc)
    (fun w hw => (hpartition.mem w).mp (List.mem_flatten.mpr ⟨c, hc, hw⟩)) hv

end CausalGraph

theorem Task.isWellFormed_arrange {t : Task} (hw : t.IsWellFormed) (hr : t.ResetsToOne)
    (reorder onlyRelevant : Bool) :
    (t.arrange reorder onlyRelevant).IsWellFormed ∧ (t.arrange reorder onlyRelevant).ResetsToOne := by
  have hall : ∀ v ∈ if reorder then (CausalGraph.ofTask t).ordering else List.range t.vars.size,
      v < t.vars.size := by
    intro v hv
    split at hv
    · exact CausalGraph.size_graph_ofTask t ▸ CausalGraph.lt_of_mem_ordering hv
    · exact List.mem_range.mp hv
  rw [arrange]
  split
  · refine isWellFormed_withOrder hw hr fun v hv => hall v ?_
    rw [variableOrder] at hv
    dsimp only at hv
    split at hv
    · exact List.mem_of_mem_filter hv
    · exact hv
  · exact ⟨hw, hr⟩

end FiniteDomain
end FinitePlanning
