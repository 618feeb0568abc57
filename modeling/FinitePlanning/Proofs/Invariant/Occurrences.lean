import FinitePlanning.Invariant.Search
import FinitePlanning.Proofs.Collections
import FinitePlanning.Proofs.Invariant.Requirements

/-!
The table of the instances that describe initial atoms. It has one entry for an instance, with the
first position and the number of its atoms. An instance is useful if it has one atom, and the useful
instances are in order of the invariant and of the position of this atom.
-/

namespace FinitePlanning
namespace Invariant

/-- An instance, and the position of an initial atom that it describes. -/
abbrev Occurrence := Instance × Nat

/-- The instances that describe initial atoms, atom by atom. -/
def occurrencesIn (invariants : List Invariant) (init : List Atom) : List Occurrence :=
  init.zipIdx.flatMap fun (a, position) =>
    invariants.zipIdx.filterMap fun (v, i) =>
      (v.parameters? a).map fun parameters => ((i, parameters), position)

/-- The positions of the atoms of an instance. -/
def positionsAmong (occurrences : List Occurrence) (i : Instance) : List Nat :=
  (occurrences.filter (·.1 = i)).map (·.2)

/-- The entry for some positions. -/
def Occurrences.ofPositions? : List Nat → Option Occurrences
  | [] => none
  | position :: rest => some ⟨position, rest.length + 1⟩

section Counting

variable {i j : Instance} {position : Nat} {positions : List Nat}
  {table : List (Instance × Occurrences)} {occurrences : List Occurrence}

theorem lookup_countInstance_of_ne (h : j ≠ i) :
    (countInstance i position table).lookup j = table.lookup j := by
  induction table with
  | nil => simp [countInstance, List.lookup_cons, beq_false_of_ne h]
  | cons entry table ih =>
      obtain ⟨k, o⟩ := entry
      rw [countInstance]
      split
      next hk =>
        subst hk
        simp [List.lookup_cons, beq_false_of_ne h]
      next => simp [List.lookup_cons, ih]

theorem lookup_countInstance_self (h : table.lookup i = Occurrences.ofPositions? positions) :
    (countInstance i position table).lookup i =
      Occurrences.ofPositions? (positions ++ [position]) := by
  induction table with
  | nil =>
      cases positions with
      | nil => simp [countInstance, Occurrences.ofPositions?]
      | cons q rest => cases h
  | cons entry table ih =>
      obtain ⟨k, o⟩ := entry
      rw [countInstance]
      split
      next hk =>
        subst hk
        rw [List.lookup_cons_self] at h ⊢
        cases positions with
        | nil => cases h
        | cons q rest =>
            cases h
            simp [Occurrences.ofPositions?]
      next hk =>
        rw [List.lookup_cons, beq_false_of_ne hk] at h ⊢
        exact ih h

theorem keys_countInstance (i : Instance) (position : Nat)
    (table : List (Instance × Occurrences)) :
    (countInstance i position table).map (·.1) =
      if i ∈ table.map (·.1) then table.map (·.1) else table.map (·.1) ++ [i] := by
  induction table with
  | nil => rfl
  | cons entry table ih =>
      obtain ⟨k, o⟩ := entry
      by_cases hk : i = k
      · simp [countInstance, hk]
      · simp only [countInstance, hk, if_false, List.map_cons, ih, List.mem_cons, false_or]
        split <;> rfl

/-- Counting occurrences one after the other gives the entry for all of their positions. -/
theorem lookup_foldl_countInstance (occurrences : List Occurrence)
    (h : table.lookup i = Occurrences.ofPositions? positions) :
    (occurrences.foldl (fun table (j, position) => countInstance j position table) table).lookup i =
      Occurrences.ofPositions? (positions ++ positionsAmong occurrences i) := by
  induction occurrences generalizing table positions with
  | nil => simpa [positionsAmong] using h
  | cons occurrence occurrences ih =>
      obtain ⟨j, position⟩ := occurrence
      rw [List.foldl_cons]
      by_cases hj : j = i
      · subst hj
        rw [ih (lookup_countInstance_self h)]
        simp [positionsAmong]
      · rw [ih ((lookup_countInstance_of_ne (Ne.symm hj)).trans h)]
        simp [positionsAmong, hj]

theorem nodup_keys_foldl (occurrences : List Occurrence) (h : (table.map (·.1)).Nodup) :
    ((occurrences.foldl (fun table (j, position) => countInstance j position table)
      table).map (·.1)).Nodup := by
  induction occurrences generalizing table with
  | nil => exact h
  | cons occurrence occurrences ih =>
      refine ih ?_
      rw [keys_countInstance]
      split
      next => exact h
      next hnew => simpa using List.Nodup.concat hnew h

end Counting

section Table

variable {invariants : List Invariant} {init : List Atom} {i : Instance} {o : Occurrences}
  {position : Nat}

theorem nodup_keys_instanceCounts (invariants : List Invariant) (init : List Atom) :
    ((instanceCounts invariants init).map (·.1)).Nodup :=
  nodup_keys_foldl (occurrencesIn invariants init) List.nodup_nil

theorem mem_instanceCounts : (i, o) ∈ instanceCounts invariants init ↔
    Occurrences.ofPositions? (positionsAmong (occurrencesIn invariants init) i) = some o := by
  have hempty : ([] : List (Instance × Occurrences)).lookup i = Occurrences.ofPositions? [] := rfl
  have hlookup : (instanceCounts invariants init).lookup i =
      Occurrences.ofPositions? (positionsAmong (occurrencesIn invariants init) i) :=
    lookup_foldl_countInstance _ hempty
  rw [← hlookup]
  exact ⟨lookup_eq_some_of_nodup (nodup_keys_instanceCounts invariants init), mem_of_lookup⟩

/-- An instance describes the atom at each of its positions. -/
theorem mem_positionsAmong : position ∈ positionsAmong (occurrencesIn invariants init) i ↔
    ∃ v a, invariants[i.1]? = some v ∧ init[position]? = some a ∧ v.Covers i.2 a := by
  obtain ⟨i, params⟩ := i
  simp only [positionsAmong, occurrencesIn, List.mem_map, List.mem_filter, List.mem_flatMap,
    List.mem_filterMap, Prod.exists, List.mem_zipIdx_iff_getElem?, Option.map_eq_some_iff,
    Prod.mk.injEq, decide_eq_true_eq]
  constructor
  · rintro ⟨_, _, _, ⟨⟨a, q, ha, v, j, hv, ps, hps, ⟨rfl, rfl⟩, rfl⟩, rfl, rfl⟩, rfl⟩
    exact ⟨v, a, hv, ha, hps⟩
  · rintro ⟨v, a, hv, ha, hps⟩
    exact ⟨i, params, position, ⟨⟨a, position, ha, v, i, hv, params, hps, ⟨rfl, rfl⟩, rfl⟩, rfl,
      rfl⟩, rfl⟩

theorem nodup_occurrencesIn (invariants : List Invariant) (init : List Atom) :
    (occurrencesIn invariants init).Nodup := by
  refine List.nodup_flatMap.mpr ⟨fun (a, q) _ => ?_, (pairwise_zipIdx init).imp ?_⟩
  · refine List.pairwise_filterMap.mpr ((pairwise_zipIdx invariants).imp ?_)
    rintro ⟨v, j⟩ ⟨w, k⟩ hlt _ hv _ hw rfl
    obtain ⟨_, -, rfl⟩ := Option.map_eq_some_iff.mp hv
    obtain ⟨_, -, heq⟩ := Option.map_eq_some_iff.mp hw
    exact hlt.ne (congrArg (·.1.1) heq).symm
  · rintro ⟨a, q⟩ ⟨b, r⟩ hlt e ha hb
    obtain ⟨_, -, ha⟩ := List.mem_filterMap.mp ha
    obtain ⟨_, -, hb⟩ := List.mem_filterMap.mp hb
    obtain ⟨_, -, rfl⟩ := Option.map_eq_some_iff.mp ha
    obtain ⟨_, -, heq⟩ := Option.map_eq_some_iff.mp hb
    exact hlt.ne (congrArg Prod.snd heq).symm

theorem nodup_positionsAmong (invariants : List Invariant) (init : List Atom) (i : Instance) :
    (positionsAmong (occurrencesIn invariants init) i).Nodup := by
  refine List.Nodup.map_on ?_ ((nodup_occurrencesIn invariants init).filter _)
  intro e he f hf hef
  have he := of_decide_eq_true (List.mem_filter.mp he).2
  have hf := of_decide_eq_true (List.mem_filter.mp hf).2
  exact Prod.ext (he.trans hf.symm) hef

theorem first_mem_positionsAmong (h : (i, o) ∈ instanceCounts invariants init) :
    o.first ∈ positionsAmong (occurrencesIn invariants init) i := by
  have hpositions := mem_instanceCounts.mp h
  cases hp : positionsAmong (occurrencesIn invariants init) i with
  | nil =>
      rw [hp] at hpositions
      cases hpositions
  | cons q rest =>
      rw [hp] at hpositions
      cases hpositions
      exact List.mem_cons_self

/-- The entries of an invariant have different first atoms. -/
theorem eq_of_first {e f : Instance × Occurrences} (he : e ∈ instanceCounts invariants init)
    (hf : f ∈ instanceCounts invariants init) (hi : e.1.1 = f.1.1)
    (hfirst : e.2.first = f.2.first) : e = f := by
  obtain ⟨v, a, hv, ha, hcovers⟩ := mem_positionsAmong.mp (first_mem_positionsAmong he)
  obtain ⟨w, b, hw, hb, hcovers'⟩ := mem_positionsAmong.mp (first_mem_positionsAmong hf)
  obtain rfl := Option.some.inj (hv.symm.trans (hi ▸ hw))
  obtain rfl := Option.some.inj (ha.symm.trans (hfirst ▸ hb))
  have hparams : e.1.2 = f.1.2 := Option.some.inj (hcovers.symm.trans hcovers')
  exact List.inj_on_of_nodup_map (nodup_keys_instanceCounts invariants init) he hf
    (Prod.ext hi hparams)

theorem count_eq_one_iff {positions : List Nat} (h : Occurrences.ofPositions? positions = some o) :
    o.count = 1 ↔ positions = [o.first] := by
  cases positions with
  | nil => cases h
  | cons q rest =>
      cases h
      simp

/-- The only initial atom that an instance describes is the one at a position. -/
def DescribesOnly (invariants : List Invariant) (init : List Atom) (i : Instance)
    (position : Nat) : Prop :=
  ∃ v a, invariants[i.1]? = some v ∧ init[position]? = some a ∧ v.Covers i.2 a ∧
    ∀ b ∈ init, v.Covers i.2 b → b = a

theorem describesOnly_of_positionsAmong
    (h : positionsAmong (occurrencesIn invariants init) i = [position]) :
    DescribesOnly invariants init i position := by
  have hmem : ∀ q, q ∈ positionsAmong (occurrencesIn invariants init) i ↔ q = position := fun q =>
    h ▸ List.mem_singleton
  obtain ⟨v, a, hv, ha, hcovers⟩ := mem_positionsAmong.mp ((hmem position).mpr rfl)
  refine ⟨v, a, hv, ha, hcovers, fun b hb hcb => ?_⟩
  obtain ⟨q, hq⟩ := List.mem_iff_getElem?.mp hb
  obtain rfl := (hmem q).mp (mem_positionsAmong.mpr ⟨v, b, hv, hq, hcb⟩)
  exact Option.some.inj (hq.symm.trans ha)

theorem positionsAmong_of_describesOnly (hinit : init.Nodup)
    (h : DescribesOnly invariants init i position) :
    positionsAmong (occurrencesIn invariants init) i = [position] := by
  obtain ⟨v, a, hv, ha, hcovers, hone⟩ := h
  refine List.perm_singleton.mp ((List.perm_ext_iff_of_nodup
    (nodup_positionsAmong invariants init i) (List.nodup_singleton position)).mpr fun q => ?_)
  rw [List.mem_singleton, mem_positionsAmong]
  constructor
  · rintro ⟨w, b, hw, hb, hcb⟩
    obtain rfl := Option.some.inj (hv.symm.trans hw)
    obtain rfl := hone b (List.mem_of_getElem? hb) hcb
    obtain ⟨hq, hget⟩ := List.getElem?_eq_some_iff.mp hb
    obtain ⟨hposition, hget'⟩ := List.getElem?_eq_some_iff.mp ha
    exact hinit.getElem_inj_iff.mp (hget.trans hget'.symm)
  · rintro rfl
    exact ⟨v, a, hv, ha, hcovers⟩

/-! ### Useful instances -/

/-- The order of the useful instances: by invariant, and then by the position of the atom. -/
def precedes (e f : Instance × Occurrences) : Bool :=
  e.1.1 < f.1.1 || (e.1.1 == f.1.1 && e.2.first ≤ f.2.first)

/-- The entries with one atom, in order. -/
def usefulEntries (table : List (Instance × Occurrences)) : List (Instance × Occurrences) :=
  (table.filter (·.2.count == 1)).mergeSort precedes

theorem selectUseful_eq (invariants : List Invariant) (table : List (Instance × Occurrences)) :
    selectUseful invariants table = (usefulEntries table).map fun (i, _) =>
      (invariants.getD i.1 default).instantiate i.2 := rfl

theorem precedes_iff {e f : Instance × Occurrences} :
    precedes e f = true ↔ e.1.1 < f.1.1 ∨ e.1.1 = f.1.1 ∧ e.2.first ≤ f.2.first := by
  simp [precedes]

theorem pairwise_usefulEntries (table : List (Instance × Occurrences)) :
    (usefulEntries table).Pairwise fun e f => precedes e f = true := by
  refine List.pairwise_mergeSort (fun e f g hef hfg => ?_) (fun e f => ?_) _
  · rw [precedes_iff] at hef hfg ⊢
    omega
  · rw [Bool.or_eq_true, precedes_iff, precedes_iff]
    omega

theorem mem_usefulEntries {table : List (Instance × Occurrences)} :
    (i, o) ∈ usefulEntries table ↔ (i, o) ∈ table ∧ o.count = 1 := by
  simp [usefulEntries, List.mem_mergeSort]

theorem eq_of_precedes {e f : Instance × Occurrences} (he : e ∈ instanceCounts invariants init)
    (hf : f ∈ instanceCounts invariants init) (hef : precedes e f = true)
    (hfe : precedes f e = true) : e = f := by
  rw [precedes_iff] at hef hfe
  exact eq_of_first he hf (by omega) (by omega)

/-- The useful instances do not depend on the order of the table. -/
theorem usefulEntries_of_perm {table : List (Instance × Occurrences)}
    (h : table.Perm (instanceCounts invariants init)) :
    usefulEntries table = usefulEntries (instanceCounts invariants init) := by
  refine List.Perm.eq_of_pairwise (fun e f he hf hef hfe => ?_) (pairwise_usefulEntries table)
    (pairwise_usefulEntries _) ?_
  · exact eq_of_precedes (h.mem_iff.mp (mem_usefulEntries.mp he).1) (mem_usefulEntries.mp hf).1
      hef hfe
  · exact (List.mergeSort_perm _ _).trans ((h.filter _).trans (List.mergeSort_perm _ _).symm)

/-- The instances with one initial atom, in order, with the position of the atom. -/
def usefulInstances (invariants : List Invariant) (init : List Atom) : List Occurrence :=
  (usefulEntries (instanceCounts invariants init)).map fun (i, o) => (i, o.first)

theorem usefulGroups_eq (invariants : List Invariant) (init : List Atom) :
    usefulGroups invariants init = (usefulInstances invariants init).map fun (i, _) =>
      (invariants.getD i.1 default).instantiate i.2 := by
  rw [usefulGroups, selectUseful_eq, usefulInstances, List.map_map]
  rfl

theorem nodup_keys_usefulInstances (invariants : List Invariant) (init : List Atom) :
    ((usefulInstances invariants init).map (·.1)).Nodup := by
  rw [usefulInstances, List.map_map]
  exact (((List.mergeSort_perm _ _).map _).nodup_iff).mpr
    ((nodup_keys_instanceCounts invariants init).sublist (List.filter_sublist.map _))

theorem describesOnly_of_mem (h : (i, position) ∈ usefulInstances invariants init) :
    DescribesOnly invariants init i position := by
  obtain ⟨⟨j, o⟩, hmem, heq⟩ := List.mem_map.mp h
  obtain ⟨rfl, rfl⟩ := Prod.mk.inj heq
  obtain ⟨hmem, hone⟩ := mem_usefulEntries.mp hmem
  exact describesOnly_of_positionsAmong ((count_eq_one_iff (mem_instanceCounts.mp hmem)).mp hone)

/-- The useful instances are those that describe exactly one initial atom. -/
theorem mem_usefulInstances (hinit : init.Nodup) :
    (i, position) ∈ usefulInstances invariants init ↔
      DescribesOnly invariants init i position := by
  refine ⟨describesOnly_of_mem, fun h => ?_⟩
  refine List.mem_map.mpr ⟨(i, ⟨position, 1⟩), mem_usefulEntries.mpr ⟨?_, rfl⟩, rfl⟩
  rw [mem_instanceCounts, positionsAmong_of_describesOnly hinit h]
  rfl

theorem pairwise_usefulInstances (invariants : List Invariant) (init : List Atom) :
    (usefulInstances invariants init).Pairwise fun e f =>
      e.1.1 < f.1.1 ∨ e.1.1 = f.1.1 ∧ e.2 < f.2 := by
  have hnodup : (usefulEntries (instanceCounts invariants init)).Nodup :=
    (List.mergeSort_perm _ _).nodup_iff.mpr
      ((List.Nodup.of_map _ (nodup_keys_instanceCounts invariants init)).filter _)
  refine List.pairwise_map.mpr (((pairwise_usefulEntries _).and hnodup).imp_of_mem ?_)
  intro e f he hf ⟨hef, hne⟩
  rw [precedes_iff] at hef
  refine hef.imp_right fun ⟨hi, hle⟩ => ⟨hi, Nat.lt_of_le_of_ne hle fun hfirst => hne ?_⟩
  exact eq_of_first (mem_usefulEntries.mp he).1 (mem_usefulEntries.mp hf).1 hi hfirst

end Table
end Invariant
end FinitePlanning
