import Mathlib.Data.List.Nodup
import FinitePlanning.FiniteDomain.Encoding
import FinitePlanning.Proofs.Collections
import FinitePlanning.Proofs.Semantics.Derivation
import FinitePlanning.Proofs.Semantics.FiniteDomain

/-!
States as valuations. A variable has the number of the true atom of its group, or
the last value if none is true. As long as at most one atom of each group is
true, an atom is true exactly if its facts hold.
-/

namespace FinitePlanning
namespace FiniteDomain

/-- At most one atom of each group is true. -/
def Exclusive (groups : List (List Atom)) (s : Interpretation) : Prop :=
  ∀ g ∈ groups, ∀ a ∈ g, ∀ b ∈ g, a ∈ s → b ∈ s → a = b

open Classical in
/-- The value of the variable of a group. -/
noncomputable def groupValue (s : Interpretation) (g : List Atom) : Nat :=
  g.findIdx (decide <| · ∈ s)

/-- The value of each variable in a state. -/
noncomputable def encodeState (groups : List (List Atom)) (s : Interpretation) : Valuation :=
  fun var => groupValue s (groups.getD var [])

theorem getElem_groupValue_mem {s : Interpretation} {g : List Atom}
    (h : groupValue s g < g.length) : g[groupValue s g] ∈ s := by
  have hfound := List.findIdx_getElem (w := h)
  simp only [decide_eq_true_eq] at hfound
  exact hfound

theorem groupValue_eq {s : Interpretation} {g : List Atom} (hn : g.Nodup)
    (he : ∀ a ∈ g, ∀ b ∈ g, a ∈ s → b ∈ s → a = b) {i : Nat} {a : Atom} (hi : g[i]? = some a) :
    groupValue s g = i ↔ a ∈ s := by
  obtain ⟨hlt, rfl⟩ := List.getElem?_eq_some_iff.mp hi
  constructor
  · rintro rfl
    exact getElem_groupValue_mem hlt
  · intro ha
    have hfound : groupValue s g < g.length :=
      List.findIdx_lt_length_of_exists ⟨_, List.getElem_mem hlt, by simpa using ha⟩
    have hs := getElem_groupValue_mem hfound
    exact hn.getElem_inj_iff.mp
      (he _ (List.getElem_mem _) _ (List.getElem_mem _) hs ha)

theorem groupValue_le {s : Interpretation} {g : List Atom} : groupValue s g ≤ g.length :=
  List.findIdx_le_length

theorem groupValue_eq_length {s : Interpretation} {g : List Atom} :
    groupValue s g = g.length ↔ ∀ a ∈ g, a ∉ s := by
  simp [groupValue, List.findIdx_eq_length]

theorem groupValue_congr {s s' : Interpretation} {g : List Atom}
    (h : ∀ a ∈ g, (a ∈ s ↔ a ∈ s')) : groupValue s g = groupValue s' g := by
  classical
  induction g with
  | nil => rfl
  | cons a g ih =>
      have ha := h a List.mem_cons_self
      have ih := ih fun b hb => h b (List.mem_cons_of_mem a hb)
      simp only [groupValue, List.findIdx_cons] at ih ⊢
      simp only [ha, ih]

namespace Dictionary

/-- The facts of an atom, group by group. -/
private def factsIn (groups : List (List Atom × Nat)) (a : Atom) : List Fact :=
  groups.flatMap fun (g, var) =>
    g.zipIdx.filterMap fun (b, value) => if b = a then some ⟨var, value⟩ else none

private theorem getD_foldl_alter (var : Nat) (entries : List (Atom × Nat))
    (index : Std.HashMap Atom (List Fact)) (a : Atom) :
    (entries.foldl (fun index (atom, value) =>
        index.alter atom fun facts => some (facts.getD [] ++ [⟨var, value⟩])) index).getD a [] =
      index.getD a [] ++
        entries.filterMap fun (b, value) => if b = a then some ⟨var, value⟩ else none := by
  induction entries generalizing index with
  | nil => simp
  | cons e entries ih =>
      rw [List.foldl_cons, ih, Std.HashMap.getD_alter, List.filterMap_cons]
      by_cases h : e.1 = a
      · subst h
        simp [Std.HashMap.getD_eq_getD_getElem?]
      · simp [h]

private theorem getD_foldl_groups (groups : List (List Atom × Nat))
    (index : Std.HashMap Atom (List Fact)) (a : Atom) :
    (groups.foldl (fun index (group, var) =>
        group.zipIdx.foldl (fun index (atom, value) =>
          index.alter atom fun facts => some (facts.getD [] ++ [⟨var, value⟩])) index)
        index).getD a [] = index.getD a [] ++ factsIn groups a := by
  induction groups generalizing index with
  | nil => simp [factsIn]
  | cons g groups ih =>
      rw [List.foldl_cons, ih, getD_foldl_alter, List.append_assoc]
      rfl

theorem facts_ofGroups (groups : List (List Atom)) (a : Atom) :
    (ofGroups groups).facts a = groups.zipIdx.flatMap fun (g, var) =>
      g.zipIdx.filterMap fun (b, value) => if b = a then some ⟨var, value⟩ else none := by
  have h := getD_foldl_groups groups.zipIdx {} a
  rw [Std.HashMap.getD_empty, List.nil_append] at h
  exact h

theorem mem_facts {groups : List (List Atom)} {a : Atom} {f : Fact} :
    f ∈ (ofGroups groups).facts a ↔ ∃ g, groups[f.var]? = some g ∧ g[f.value]? = some a := by
  rw [facts_ofGroups]
  simp only [List.mem_flatMap, List.mem_filterMap, Prod.exists, List.mem_zipIdx_iff_getElem?]
  constructor
  · rintro ⟨g, var, hg, b, value, hb, he⟩
    split at he
    next hab =>
      cases he
      exact ⟨g, hg, hab ▸ hb⟩
    next => cases he
  · rintro ⟨g, hg, ha⟩
    exact ⟨g, f.var, hg, a, f.value, ha, by simp⟩

theorem range_ofGroups {groups : List (List Atom)} {var : Nat} {g : List Atom}
    (h : groups[var]? = some g) : (ofGroups groups).range var = g.length + 1 := by
  simp [ofGroups, range, Array.getD_eq_getD_getElem?, h]

theorem size_ranges (groups : List (List Atom)) :
    (ofGroups groups).ranges.size = groups.length := by
  simp [ofGroups]

theorem lt_of_mem_facts {groups : List (List Atom)} {a : Atom} {f : Fact}
    (h : f ∈ (ofGroups groups).facts a) :
    f.var < groups.length ∧ f.value < (ofGroups groups).range f.var := by
  obtain ⟨g, hg, ha⟩ := mem_facts.mp h
  rw [range_ofGroups hg]
  exact ⟨(List.getElem?_eq_some_iff.mp hg).1,
    Nat.lt_succ_of_lt (List.getElem?_eq_some_iff.mp ha).1⟩

theorem exists_fact {groups : List (List Atom)} {a : Atom} (h : ∃ g ∈ groups, a ∈ g) :
    ∃ f, f ∈ (ofGroups groups).facts a := by
  obtain ⟨g, hg, ha⟩ := h
  obtain ⟨var, hvar⟩ := List.getElem?_of_mem hg
  obtain ⟨value, hvalue⟩ := List.getElem?_of_mem ha
  exact ⟨⟨var, value⟩, mem_facts.mpr ⟨g, hvar, hvalue⟩⟩

/-- A valuation shows an interpretation: the facts of an atom hold if and only if
the atom is true. -/
structure Shows (d : Dictionary) (σ : Valuation) (s : Interpretation) : Prop where
  holds_iff : ∀ a, ∀ f ∈ d.facts a, (f.Holds σ ↔ a ∈ s)
  lt_range : ∀ a, ∀ f ∈ d.facts a, σ f.var < d.range f.var

theorem shows_encodeState {groups : List (List Atom)} {s : Interpretation}
    (hn : ∀ g ∈ groups, g.Nodup) (he : Exclusive groups s) :
    (ofGroups groups).Shows (encodeState groups s) s where
  holds_iff a f hf := by
    obtain ⟨g, hg, ha⟩ := mem_facts.mp hf
    have hmem := List.mem_of_getElem? hg
    rw [← groupValue_eq (hn g hmem) (he g hmem) ha]
    simp [Fact.Holds, encodeState, hg]
  lt_range a f hf := by
    obtain ⟨g, hg, ha⟩ := mem_facts.mp hf
    rw [range_ofGroups hg]
    simpa [encodeState, hg] using Nat.lt_succ_of_le groupValue_le

/-! ### The initial values of the variables, read off the atoms that are true initially -/

section Initial

variable {d : Dictionary}

/-- A variable has the value of one of the facts, or the last value if none of the
facts is about it. -/
def Reflects (d : Dictionary) (state : Array Nat) (facts : List Fact) : Prop :=
  state.size = d.ranges.size ∧ ∀ var < state.size,
    (∃ f ∈ facts, f.var = var ∧ state.getD var 0 = f.value) ∨
      state.getD var 0 = d.noneOfThose var ∧ ∀ f ∈ facts, f.var ≠ var

theorem Reflects.set {state : Array Nat} {facts : List Fact} (h : d.Reflects state facts)
    (f : Fact) : d.Reflects (state.setIfInBounds f.var f.value) (facts ++ [f]) := by
  refine ⟨by simpa using h.1, fun var hvar => ?_⟩
  have hvar : var < state.size := by simpa using hvar
  by_cases hf : f.var = var
  · refine .inl ⟨f, by simp, hf, ?_⟩
    simp [Array.getD, hvar, hf]
  · have hget : (state.setIfInBounds f.var f.value).getD var 0 = state.getD var 0 := by
      simp [Array.getD, hvar, hf]
    rw [hget]
    refine (h.2 var hvar).imp ?_ ?_
    · rintro ⟨g, hg, hgv, hgs⟩
      exact ⟨g, List.mem_append_left _ hg, hgv, hgs⟩
    · rintro ⟨hs, hno⟩
      refine ⟨hs, fun g hg => ?_⟩
      rcases List.mem_append.mp hg with hg | hg
      · exact hno g hg
      · rw [List.mem_singleton.mp hg]
        exact hf

theorem Reflects.foldlM {a : Atom} {fs seen : List Fact} {state state' : Array Nat}
    (h : d.Reflects state seen)
    (hfold : fs.foldlM (fun (state : Array Nat) (f : Fact) =>
      let current := state.getD f.var 0
      if current = d.noneOfThose f.var ∨ current = f.value then
        (pure (state.setIfInBounds f.var f.value) : Except Mismatch (Array Nat))
      else throw (.initialFacts a)) state = .ok state') : d.Reflects state' (seen ++ fs) := by
  induction fs generalizing state seen with
  | nil =>
      cases hfold
      simpa using h
  | cons f fs ih =>
      rw [List.foldlM_cons] at hfold
      dsimp only at hfold
      split at hfold
      · simpa using ih (h.set f) hfold
      · cases hfold

theorem reflects_setInitial {a : Atom} {seen : List Fact} {state state' : Array Nat}
    (h : d.Reflects state seen) (hset : d.setInitial state a = .ok state') :
    d.Reflects state' (seen ++ d.facts a) :=
  h.foldlM hset

theorem reflects_initialState {init : List Atom} {state : Array Nat}
    (h : d.initialState init = .ok state) : d.Reflects state (init.flatMap d.facts) := by
  have hall : ∀ (seen : List Fact) {st : Array Nat}, d.Reflects st seen →
      init.foldlM d.setInitial st = .ok state →
        d.Reflects state (seen ++ init.flatMap d.facts) := by
    clear h
    induction init with
    | nil =>
        intro seen st hr hfold
        cases hfold
        simpa using hr
    | cons a init ih =>
        intro seen st hr hfold
        rw [List.foldlM_cons] at hfold
        cases hset : d.setInitial st a with
        | error m => rw [hset] at hfold; cases hfold
        | ok next =>
            rw [hset] at hfold
            simpa using ih _ (reflects_setInitial hr hset) hfold
  refine hall [] ⟨by simp, fun var hvar => .inr ⟨?_, nofun⟩⟩ h
  have hvar : var < d.ranges.size := by simpa using hvar
  simp [noneOfThose, range, Array.getD, hvar]

/-- The initial values are those of the initial state for every variable whose
group it decides. -/
theorem initialState_eq_encodeState {groups : List (List Atom)} {init : List Atom}
    {state : Array Nat} {s : Interpretation}
    (h : (ofGroups groups).initialState init = .ok state) {var : Nat} {g : List Atom}
    (hg : groups[var]? = some g) (hn : g.Nodup)
    (he : ∀ a ∈ g, ∀ b ∈ g, a ∈ s → b ∈ s → a = b) (hs : ∀ a ∈ g, (a ∈ init ↔ a ∈ s)) :
    state.getD var 0 = encodeState groups s var := by
  obtain ⟨hsize, hvalues⟩ := reflects_initialState h
  have hvar : var < state.size := by
    obtain ⟨hlt, -⟩ := List.getElem?_eq_some_iff.mp hg
    rw [hsize]
    simpa [ofGroups] using hlt
  have henc : encodeState groups s var = groupValue s g := by simp [encodeState, hg]
  rw [henc]
  rcases hvalues var hvar with ⟨f, hf, rfl, hstate⟩ | ⟨hstate, hno⟩
  · obtain ⟨a, ha, hfa⟩ := List.mem_flatMap.mp hf
    obtain ⟨g', hg', hag⟩ := mem_facts.mp hfa
    obtain rfl : g = g' := Option.some.inj (hg.symm.trans hg')
    rw [hstate]
    exact ((groupValue_eq hn he hag).mpr
      ((hs a (List.mem_of_getElem? hag)).mp ha)).symm
  · have hnone : ∀ a ∈ g, a ∉ s := by
      intro a ha has
      obtain ⟨i, hi⟩ := List.getElem?_of_mem ha
      exact hno ⟨var, i⟩ (List.mem_flatMap.mpr
        ⟨a, (hs a ha).mpr has, mem_facts.mpr ⟨g, hg, hi⟩⟩) rfl
    rw [hstate, groupValue_eq_length.mpr hnone, noneOfThose, range_ofGroups hg]
    rfl

end Initial

end Dictionary
end FiniteDomain
end FinitePlanning
