import FinitePlanning.FiniteDomain.Pruning
import FinitePlanning.Proofs.FiniteDomain.WellFormed
import FinitePlanning.Proofs.Graph.Components

/-!
The values that a variable can take. They include the initial value, and each transition
leads from a value that can be taken to another one.
-/

namespace FinitePlanning
namespace FiniteDomain

/-- A transition that can change one value into another. -/
def Transition.Leads (change : Transition) (old new : Nat) : Prop :=
  change.after = new ∧ match change.before with
    | some before => before = old
    | none => old ≠ new

namespace Transition

variable {change : Transition} {changes : List Transition} {g : Graph} {old new : Nat}

theorem size_addTo : (change.addTo g).size = g.size := by
  rw [addTo, Graph.size, Graph.size]
  split <;> simp

theorem mem_successorsOf_addTo (hold : old < g.size) :
    new ∈ (change.addTo g).successorsOf old ↔ new ∈ g.successorsOf old ∨ change.Leads old new := by
  obtain ⟨next, hget⟩ : ∃ next, g.successors[old]? = some next :=
    ⟨_, Array.getElem?_eq_getElem hold⟩
  rw [addTo, Leads]
  cases change.before with
  | some before =>
      simp only [Graph.successorsOf, Array.getD_eq_getD_getElem?, Array.getElem?_modify, hget]
      by_cases hb : before = old
      · simp [hb, or_comm, eq_comm]
      · simp [hb]
  | none =>
      simp only [Graph.successorsOf, Array.getD_eq_getD_getElem?, Array.getElem?_mapIdx, hget,
        Option.map_some, Option.getD_some]
      by_cases ha : old = change.after
      · simp only [ha, if_true]
        exact (or_iff_left fun h => h.2 h.1).symm
      · rw [if_neg ha, List.mem_cons]
        constructor
        · rintro (rfl | h)
          · exact .inr ⟨rfl, ha⟩
          · exact .inl h
        · rintro (h | ⟨rfl, -⟩)
          · exact .inr h
          · exact .inl rfl

theorem mem_successorsOf_foldl (hold : old < g.size) :
    new ∈ (changes.foldl (fun g change => change.addTo g) g).successorsOf old ↔
      new ∈ g.successorsOf old ∨ ∃ change ∈ changes, change.Leads old new := by
  induction changes generalizing g with
  | nil => simp
  | cons change changes ih =>
      rw [List.foldl_cons, ih (size_addTo.symm ▸ hold), mem_successorsOf_addTo hold, or_assoc]
      simp

theorem size_foldl : (changes.foldl (fun g change => change.addTo g) g).size = g.size := by
  induction changes generalizing g with
  | nil => rfl
  | cons change changes ih => rw [List.foldl_cons, ih, size_addTo]

end Transition

namespace Task

variable {t : Task} {var value old new : Nat} {v : Variable}

/-- A value that a variable can take. -/
def CanTake (t : Task) (var value : Nat) : Prop := value ∈ t.reachableValues.getD var []

theorem hasFact_iff {f : Fact} :
    t.hasFact f = true ↔ ∃ v, t.vars[f.var]? = some v ∧ f.value < v.range := by
  rw [hasFact]
  cases t.vars[f.var]? <;> simp

/-- The graph of the values of a variable. -/
theorem valueGraphs_spec (hv : t.vars[var]? = some v) :
    ∃ g : Graph, t.valueGraphs[var]? = some g ∧ g.size = v.range ∧
      ∀ old < v.range, ∀ new, new ∈ g.successorsOf old ↔
        ∃ change ∈ t.transitions, change.var = var ∧ change.Leads old new := by
  have hget := getElem?_foldl_modify Transition.var Transition.addTo t.transitions
    (t.vars.map fun v => (⟨Array.replicate v.range []⟩ : Graph)) var
  rw [Array.getElem?_map, hv] at hget
  have hsize : (⟨Array.replicate v.range []⟩ : Graph).size = v.range := Array.size_replicate
  refine ⟨_, hget, by rw [Transition.size_foldl, hsize], fun old hold new => ?_⟩
  rw [Transition.mem_successorsOf_foldl (hsize.symm ▸ hold)]
  have hempty : (⟨Array.replicate v.range []⟩ : Graph).successorsOf old = [] := by
    simp [Graph.successorsOf, hold]
  simp [hempty, and_assoc]

/-- The values that a variable can take. -/
theorem reachableValues_spec (hv : t.vars[var]? = some v) (hi : t.init[var]? = some value) :
    ∃ g : Graph, t.valueGraphs[var]? = some g ∧ t.reachableValues[var]? =
      some ((List.range v.range).filter fun x => !(g.traverse [value]).isFresh x) := by
  obtain ⟨g, hg, hsize, -⟩ := valueGraphs_spec hv
  refine ⟨g, hg, ?_⟩
  simp [reachableValues, Array.getElem?_zipWith, hg, hi, Graph.vertices, hsize]

theorem size_reachableValues (hw : t.IsWellFormed) : t.reachableValues.size = t.vars.size := by
  have hsize : ∀ (changes : List Transition) (gs : Array Graph),
      (changes.foldl (fun gs change => gs.modify change.var change.addTo) gs).size = gs.size := by
    intro changes
    induction changes with
    | nil => exact fun _ => rfl
    | cons change changes ih => exact fun gs => (ih _).trans Array.size_modify
  rw [reachableValues, Array.size_zipWith, valueGraphs, hsize, Array.size_map, hw.init_size,
    Nat.min_self]

theorem pairwise_reachableValues (hw : t.IsWellFormed) (hv : t.vars[var]? = some v) :
    (t.reachableValues.getD var []).Pairwise (· < ·) ∧
      ∀ x ∈ t.reachableValues.getD var [], x < v.range := by
  have hlt : var < t.init.size := hw.init_size ▸ (Array.getElem?_eq_some_iff.mp hv).1
  obtain ⟨g, -, hvalues⟩ := reachableValues_spec hv (Array.getElem?_eq_getElem hlt)
  rw [Array.getD_eq_getD_getElem?, hvalues]
  exact ⟨List.pairwise_lt_range.filter _, fun x hx => List.mem_range.mp (List.mem_of_mem_filter hx)⟩

theorem canTake_init (hw : t.IsWellFormed) (hi : t.init[var]? = some value) :
    t.CanTake var value := by
  obtain ⟨v, hv, hlt⟩ := hasFact_iff.mp (hw.init var value hi)
  obtain ⟨g, -, hvalues⟩ := reachableValues_spec hv hi
  rw [CanTake, Array.getD_eq_getD_getElem?, hvalues]
  refine List.mem_filter.mpr ⟨List.mem_range.mpr hlt, ?_⟩
  rw [Graph.isFresh_traverse_root List.mem_cons_self]
  rfl

/-- A transition leads from a value that can be taken to another one. -/
theorem CanTake.of_transition (hw : t.IsWellFormed) {change : Transition}
    (hchange : change ∈ t.transitions) (h : t.CanTake change.var old)
    (hbefore : ∀ before ∈ change.before, before = old)
    (hafter : t.hasFact ⟨change.var, change.after⟩ = true) :
    t.CanTake change.var change.after := by
  by_cases hsame : old = change.after
  · exact hsame ▸ h
  · obtain ⟨v, hv, hlt⟩ := hasFact_iff.mp hafter
    have hinit : change.var < t.init.size :=
      hw.init_size ▸ (Array.getElem?_eq_some_iff.mp hv).1
    obtain ⟨g, hg, hvalues⟩ := reachableValues_spec hv (Array.getElem?_eq_getElem hinit)
    obtain ⟨g', hg', hsize, hedges⟩ := valueGraphs_spec hv
    obtain rfl := Option.some.inj (hg.symm.trans hg')
    rw [CanTake, Array.getD_eq_getD_getElem?, hvalues] at h ⊢
    obtain ⟨hold, hfresh⟩ := List.mem_filter.mp h
    have hold := List.mem_range.mp hold
    refine List.mem_filter.mpr ⟨List.mem_range.mpr hlt, ?_⟩
    rw [Graph.isFresh_traverse_successor (hsize.symm ▸ hold) (by simpa using hfresh)]
    · rfl
    · refine (hedges old hold _).mpr ⟨change, hchange, rfl, rfl, ?_⟩
      cases hb : change.before with
      | none => exact hsame
      | some before => exact hbefore before hb

end Task
end FiniteDomain
end FinitePlanning
