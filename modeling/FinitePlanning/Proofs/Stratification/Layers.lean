import Mathlib.Data.List.Nodup
import FinitePlanning.Proofs.Compilation
import FinitePlanning.Proofs.Graph.Components
import FinitePlanning.Stratification

/-!
The layers of derived atoms. What the axioms of an atom require is on its layer or below, and
strictly below if it is a negation.
-/

namespace FinitePlanning

section Order

theorem Predicate.eq_of_rank_text {p q : Predicate} (hrank : p.rank = q.rank)
    (htext : p.text = q.text) : p = q := by
  cases p <;> cases q <;> simp_all [Predicate.rank, Predicate.text]

instance : Std.TransOrd Predicate :=
  inferInstanceAs (Std.TransCmp (compareLex (compareOn Predicate.rank) (compareOn Predicate.text)))

instance : Std.LawfulEqOrd Predicate where
  eq_of_compare h := by
    obtain ⟨hrank, htext⟩ := compareLex_eq_eq.mp h
    exact Predicate.eq_of_rank_text (Std.LawfulEqCmp.eq_of_compare hrank)
      (Std.LawfulEqCmp.eq_of_compare htext)

instance : Std.TransOrd Atom :=
  inferInstanceAs (Std.TransCmp (compareLex (compareOn Atom.predicate) (compareOn Atom.args)))

instance : Std.LawfulEqOrd Atom where
  eq_of_compare {a b} h := by
    obtain ⟨hpredicate, hargs⟩ := compareLex_eq_eq.mp h
    cases a
    cases b
    simp only [Atom.mk.injEq]
    exact ⟨Std.LawfulEqCmp.eq_of_compare hpredicate, Std.LawfulEqCmp.eq_of_compare hargs⟩

end Order

namespace Dependencies

variable {axioms : List GroundAxiom} {a : Atom} {v w : Nat}

/-- The positions of the elements of a list without repetition. -/
theorem getElem?_ofList_zipIdx {atoms : List Atom} (hn : atoms.Nodup) :
    (Std.HashMap.ofList atoms.zipIdx)[a]? = some v ↔ atoms[v]? = some a := by
  have hdistinct : atoms.zipIdx.Pairwise fun p q => (p.1 == q.1) = false := by
    rw [← List.pairwise_map (f := Prod.fst) (R := fun a b : Atom => (a == b) = false),
      List.zipIdx_map_fst]
    exact hn.imp fun h => beq_false_of_ne h
  have hget : ∀ i, atoms[i]? = some a →
      (Std.HashMap.ofList atoms.zipIdx)[a]? = some i := fun i hi =>
    Std.HashMap.getElem?_ofList_of_mem (BEq.refl a) hdistinct
      (List.mem_zipIdx_iff_getElem?.mpr hi)
  refine ⟨fun h => ?_, hget v⟩
  have hmem : a ∈ atoms := by
    have hcontains : (Std.HashMap.ofList atoms.zipIdx).contains a = true := by
      rw [Std.HashMap.contains_eq_isSome_getElem?, h]
      rfl
    rw [Std.HashMap.contains_ofList, List.zipIdx_map_fst] at hcontains
    exact List.contains_iff_mem.mp hcontains
  obtain ⟨i, hi⟩ := List.getElem?_of_mem hmem
  obtain rfl := Option.some.inj (h.symm.trans (hget i hi))
  exact hi

theorem toList_atoms (axioms : List GroundAxiom) :
    (ofAxioms axioms).atoms.toList = orderedSet (axioms.map (·.effect)) := rfl

theorem nodup_atoms (axioms : List GroundAxiom) : (ofAxioms axioms).atoms.toList.Nodup :=
  nodup_orderedSet _

theorem exists_getElem?_atoms : (∃ v : Nat, (ofAxioms axioms).atoms[v]? = some a) ↔
    ∃ x ∈ axioms, x.effect = a := by
  rw [← List.mem_map, ← mem_orderedSet, ← toList_atoms, Array.mem_toList_iff,
    Array.mem_iff_getElem?]

theorem getElem?_position :
    (Std.HashMap.ofList (ofAxioms axioms).atoms.toList.zipIdx)[a]? = some v ↔
      (ofAxioms axioms).atoms[v]? = some a := by
  rw [getElem?_ofList_zipIdx (nodup_atoms axioms), Array.getElem?_toList]

theorem inj_atoms (hv : (ofAxioms axioms).atoms[v]? = some a)
    (hw : (ofAxioms axioms).atoms[w]? = some a) : v = w :=
  Option.some.inj ((getElem?_position.mpr hv).symm.trans (getElem?_position.mpr hw))

/-- The axioms of an atom are those that have it as their effect. -/
theorem getElem?_axioms (h : (ofAxioms axioms).atoms[v]? = some a) :
    (ofAxioms axioms).axioms[v]? = some (axioms.filter (·.effect = a)) := by
  let position := Std.HashMap.ofList (ofAxioms axioms).atoms.toList.zipIdx
  have hlt : v < (ofAxioms axioms).atoms.size := (Array.getElem?_eq_some_iff.mp h).1
  suffices hall : ∀ xs : List GroundAxiom, (∀ x ∈ xs, x ∈ axioms) →
      (xs.foldr (fun x groups => groups.modify (position.getD x.effect 0) (x :: ·))
        (Array.replicate (ofAxioms axioms).atoms.size []))[v]? =
          some (xs.filter (·.effect = a)) from
    hall axioms fun _ => id
  intro xs hxs
  induction xs with
  | nil => simp [hlt]
  | cons x xs ih =>
      obtain ⟨i, hi⟩ := exists_getElem?_atoms.mpr ⟨x, hxs x List.mem_cons_self, rfl⟩
      have hposition : position.getD x.effect 0 = i := by
        rw [Std.HashMap.getD_eq_getD_getElem?, getElem?_position.mpr hi]
        rfl
      rw [List.foldr_cons, Array.getElem?_modify, ih fun y hy => hxs y (List.mem_cons_of_mem x hy),
        hposition]
      by_cases hx : x.effect = a
      · obtain rfl := inj_atoms hi (hx ▸ h)
        simp [hx]
      · have hne : i ≠ v := fun he => hx (Option.some.inj (hi.symm.trans (he ▸ h)))
        simp [hx, hne]

/-- The dependencies on atoms or on negations of atoms. -/
def requirements (d : Dependencies) (negated : Bool) : Array (List Nat) :=
  if negated then d.negative else d.positive

theorem mem_requirements {negated : Bool} (h : (ofAxioms axioms).atoms[v]? = some a) :
    w ∈ ((ofAxioms axioms).requirements negated).getD v [] ↔
      ∃ x ∈ axioms, x.effect = a ∧ ∃ l ∈ x.condition, l.negated = negated ∧
        (ofAxioms axioms).atoms[w]? = some l.atom := by
  have hget : ((ofAxioms axioms).requirements negated).getD v [] =
      required (Std.HashMap.ofList (ofAxioms axioms).atoms.toList.zipIdx) negated
        (axioms.filter (·.effect = a)) := by
    have haxioms := getElem?_axioms h
    cases negated <;>
      simp [requirements, ofAxioms, Array.getD_eq_getD_getElem?] at haxioms ⊢ <;> simp [haxioms]
  rw [hget, required, mem_orderedSet, List.mem_flatMap]
  simp only [List.mem_filter, decide_eq_true_eq, List.mem_filterMap, and_assoc]
  refine exists_congr fun x => and_congr_right fun _ => and_congr_right fun _ =>
    exists_congr fun l => and_congr_right fun _ => ?_
  split
  next hl => exact getElem?_position.trans (and_iff_right hl).symm
  next hl => exact iff_of_false nofun fun h => hl h.1

theorem size_requirements (negated : Bool) :
    ((ofAxioms axioms).requirements negated).size = (ofAxioms axioms).atoms.size := by
  have hfold : ∀ (xs : List GroundAxiom) (f : GroundAxiom → Nat)
      (groups : Array (List GroundAxiom)),
      (xs.foldr (fun x groups => groups.modify (f x) (x :: ·)) groups).size = groups.size := by
    intro xs f groups
    induction xs with
    | nil => rfl
    | cons x xs ih => rw [List.foldr_cons, Array.size_modify, ih]
  cases negated <;> simp [requirements, ofAxioms, hfold]

theorem lt_of_mem_requirements {negated : Bool} (hv : v < (ofAxioms axioms).atoms.size)
    (h : w ∈ ((ofAxioms axioms).requirements negated).getD v []) :
    w < (ofAxioms axioms).atoms.size := by
  obtain ⟨x, -, -, l, -, -, hw⟩ := (mem_requirements (Array.getElem?_eq_getElem hv)).mp h
  exact (Array.getElem?_eq_some_iff.mp hw).1

theorem size_graph (axioms : List GroundAxiom) :
    (ofAxioms axioms).graph.size = (ofAxioms axioms).atoms.size := by
  have hpositive : (ofAxioms axioms).positive.size = _ := size_requirements false
  have hnegative : (ofAxioms axioms).negative.size = _ := size_requirements true
  rw [graph, Graph.size, Array.size_zipWith, hpositive, hnegative, Nat.min_self]

theorem successorsOf_graph (hv : v < (ofAxioms axioms).atoms.size) :
    (ofAxioms axioms).graph.successorsOf v = orderedSet
      (((ofAxioms axioms).requirements false).getD v [] ++
        ((ofAxioms axioms).requirements true).getD v []) := by
  have hpositive : v < (ofAxioms axioms).positive.size :=
    Nat.lt_of_lt_of_eq hv (size_requirements false).symm
  have hnegative : v < (ofAxioms axioms).negative.size :=
    Nat.lt_of_lt_of_eq hv (size_requirements true).symm
  rw [graph, Graph.successorsOf, Array.getD_eq_getD_getElem?, Array.getElem?_zipWith]
  simp [requirements, hpositive, hnegative]

theorem mem_successorsOf_graph (hv : v < (ofAxioms axioms).atoms.size) {negated : Bool}
    (h : w ∈ ((ofAxioms axioms).requirements negated).getD v []) :
    w ∈ (ofAxioms axioms).graph.successorsOf v := by
  rw [successorsOf_graph hv, mem_orderedSet, List.mem_append]
  cases negated with
  | false => exact .inl h
  | true => exact .inr h

/-! ### Layers -/

variable {d : Dependencies} {cs : List (List Nat)} {layerOf : Array Nat}

/-- Layers that respect the dependencies. -/
structure IsLayering (d : Dependencies) (layerOf : Array Nat) : Prop where
  positive : ∀ v < d.atoms.size, ∀ w ∈ d.positive.getD v [], layerOf.getD w 0 ≤ layerOf.getD v 0
  negative : ∀ v < d.atoms.size, ∀ w ∈ d.negative.getD v [], layerOf.getD w 0 < layerOf.getD v 0

/-- The components of the dependencies, without a negation inside one of them. -/
structure IsStratifiable (d : Dependencies) (cs : List (List Nat)) : Prop where
  nodup : cs.flatten.Nodup
  mem : ∀ v, v ∈ cs.flatten ↔ v < d.atoms.size
  positive : ∀ c rest, c :: rest <:+ cs → ∀ v ∈ c, ∀ w ∈ d.positive.getD v [],
    w ∈ c ∨ w ∈ rest.flatten
  negative : ∀ c rest, c :: rest <:+ cs → ∀ v ∈ c, ∀ w ∈ d.negative.getD v [], w ∈ rest.flatten

theorem isStratifiable_of_components
    (h : (ofAxioms axioms).negativeCycle? (Graph.componentOf (ofAxioms axioms).atoms.size
      (ofAxioms axioms).graph.components) = none) :
    (ofAxioms axioms).IsStratifiable (ofAxioms axioms).graph.components := by
  obtain ⟨hnodup, hmem, -, hforward⟩ := (ofAxioms axioms).graph.isOrderedPartition_components
  revert h
  generalize (ofAxioms axioms).graph.components = cs at *
  intro h
  rw [size_graph] at hmem
  have hreq : ∀ (negated : Bool) c rest, c :: rest <:+ cs → ∀ v ∈ c,
      ∀ w ∈ ((ofAxioms axioms).requirements negated).getD v [], w ∈ c ∨ w ∈ rest.flatten := by
    rintro negated c rest ⟨front, rfl⟩ v hv w hw
    have hv' : v ∈ (front ++ c :: rest).flatten := by
      rw [List.flatten_append, List.flatten_cons]
      exact List.mem_append_right _ (List.mem_append_left _ hv)
    have hlt := (hmem v).mp hv'
    have hw' := (hmem w).mpr (lt_of_mem_requirements hlt hw)
    rw [List.flatten_append, List.flatten_cons, List.mem_append, List.mem_append] at hw'
    refine hw'.resolve_left fun hfront => ?_
    obtain ⟨e, he, hwe⟩ := List.mem_flatten.mp hfront
    exact (List.pairwise_append.mp hforward).2.2 e he c List.mem_cons_self w hwe v hv
      (mem_successorsOf_graph hlt hw)
  refine ⟨hnodup, hmem, hreq false, fun c rest hsuffix v hv w hw => ?_⟩
  refine (hreq true c rest hsuffix v hv w hw).resolve_left fun hwc => ?_
  obtain ⟨i, hi⟩ := List.getElem?_of_mem (hsuffix.mem List.mem_cons_self)
  have hv' := (hmem v).mp (List.mem_flatten.mpr ⟨c, List.mem_of_getElem? hi, hv⟩)
  have hw' := (hmem w).mp (List.mem_flatten.mpr ⟨c, List.mem_of_getElem? hi, hwc⟩)
  rw [negativeCycle?, List.findSome?_eq_none_iff] at h
  have hfind := Option.map_eq_none_iff.mp (h v (List.mem_range.mpr hv'))
  rw [List.find?_eq_none] at hfind
  refine hfind w hw ?_
  rw [Graph.getElem?_componentOf hnodup hi hv hv', Graph.getElem?_componentOf hnodup hi hwc hw']
  exact BEq.refl _

theorem le_leastLayer_of_positive (h : w ∈ d.positive.getD v []) :
    layerOf.getD w 0 ≤ d.leastLayer layerOf v :=
  le_foldl_max (List.mem_append_left _ (List.mem_map_of_mem h))

theorem lt_leastLayer_of_negative (h : w ∈ d.negative.getD v []) :
    layerOf.getD w 0 < d.leastLayer layerOf v :=
  le_foldl_max (List.mem_append_right _
    (List.mem_map_of_mem (f := fun w => layerOf.getD w 0 + 1) h))

theorem IsStratifiable.exists_suffix {rest : List (List Nat)} (hv : v ∈ rest.flatten) :
    ∃ c tail, c :: tail <:+ rest ∧ v ∈ c := by
  obtain ⟨c, hc, hvc⟩ := List.mem_flatten.mp hv
  obtain ⟨front, tail, rfl⟩ := List.append_of_mem hc
  exact ⟨c, tail, List.suffix_append front _, hvc⟩

/-- What an atom requires is in its component or a later one. -/
theorem IsStratifiable.closed (h : d.IsStratifiable cs) {rest : List (List Nat)}
    (hsuffix : rest <:+ cs) (hv : v ∈ rest.flatten)
    (hw : w ∈ d.positive.getD v [] ∨ w ∈ d.negative.getD v []) : w ∈ rest.flatten := by
  obtain ⟨c, tail, htail, hvc⟩ := exists_suffix hv
  have hmem : w ∈ c ∨ w ∈ tail.flatten := hw.elim (h.positive c tail (htail.trans hsuffix) v hvc w)
    fun hw => .inr (h.negative c tail (htail.trans hsuffix) v hvc w hw)
  obtain ⟨front, rfl⟩ := htail
  rw [List.flatten_append, List.flatten_cons]
  exact List.mem_append_right _ (List.mem_append.mpr hmem)

theorem size_leastLayers (cs : List (List Nat)) : (d.leastLayers cs).size = d.atoms.size := by
  induction cs with
  | nil => exact Array.size_replicate
  | cons c rest ih => exact (Graph.size_foldl_set c _ _).trans ih

/-- The least layer that the components after a component allow for it. -/
def leastLayerOf (d : Dependencies) (c : List Nat) (rest : List (List Nat)) : Nat :=
  (c.map (d.leastLayer (d.leastLayers rest))).foldl max 0

theorem getD_leastLayers_of_mem {c : List Nat} {rest : List (List Nat)} (hv : v ∈ c)
    (hlt : v < d.atoms.size) : (d.leastLayers (c :: rest)).getD v 0 = d.leastLayerOf c rest := by
  have hunfold : d.leastLayers (c :: rest) =
      c.foldl (·.setIfInBounds · (d.leastLayerOf c rest)) (d.leastLayers rest) := rfl
  have hsize : v < (d.leastLayers rest).size := (size_leastLayers rest).symm ▸ hlt
  rw [hunfold, Array.getD_eq_getD_getElem?, Graph.getElem?_foldl_set, if_pos ⟨hv, hsize⟩]
  rfl

theorem getD_leastLayers_of_not_mem {c : List Nat} {rest : List (List Nat)} (hv : v ∉ c) :
    (d.leastLayers (c :: rest)).getD v 0 = (d.leastLayers rest).getD v 0 := by
  have hunfold : d.leastLayers (c :: rest) =
      c.foldl (·.setIfInBounds · (d.leastLayerOf c rest)) (d.leastLayers rest) := rfl
  rw [hunfold, Array.getD_eq_getD_getElem?, Graph.getElem?_foldl_set, if_neg fun hc => hv hc.1,
    Array.getD_eq_getD_getElem?]

/-- Atoms have layer zero until their component gets its layer. -/
theorem getD_leastLayers_of_not_mem_flatten {rest : List (List Nat)} (hv : v ∉ rest.flatten) :
    (d.leastLayers rest).getD v 0 = 0 := by
  induction rest with
  | nil =>
      rw [leastLayers, List.foldr_nil, Array.getD_eq_getD_getElem?, Array.getElem?_replicate]
      split <;> rfl
  | cons c rest ih =>
      rw [List.flatten_cons, List.mem_append, not_or] at hv
      rw [getD_leastLayers_of_not_mem hv.1]
      exact ih hv.2

theorem IsStratifiable.lt (h : d.IsStratifiable cs) {c : List Nat} {rest : List (List Nat)}
    (hsuffix : c :: rest <:+ cs) (hv : v ∈ c) : v < d.atoms.size :=
  (h.mem v).mp (List.mem_flatten.mpr ⟨c, hsuffix.mem List.mem_cons_self, hv⟩)

/-- A component has no atom in common with those after it. -/
theorem IsStratifiable.not_mem (h : d.IsStratifiable cs) {c : List Nat} {rest : List (List Nat)}
    (hsuffix : c :: rest <:+ cs) (hv : v ∈ rest.flatten) : v ∉ c := by
  obtain ⟨front, rfl⟩ := hsuffix
  have hnodup := h.nodup
  rw [List.flatten_append, List.flatten_cons, List.nodup_append, List.nodup_append] at hnodup
  exact fun hvc => hnodup.2.1.2.2 v hvc v hv rfl

/-- Each component gets a layer when the components below it have theirs. -/
theorem isLayering_leastLayers (h : d.IsStratifiable cs) : d.IsLayering (d.leastLayers cs) := by
  suffices hall : ∀ rest, rest <:+ cs → ∀ v ∈ rest.flatten,
      (∀ w ∈ d.positive.getD v [],
        (d.leastLayers rest).getD w 0 ≤ (d.leastLayers rest).getD v 0) ∧
      ∀ w ∈ d.negative.getD v [],
        (d.leastLayers rest).getD w 0 < (d.leastLayers rest).getD v 0 by
    have hspec := hall cs (List.suffix_refl cs)
    exact ⟨fun v hv => (hspec v ((h.mem v).mpr hv)).1, fun v hv => (hspec v ((h.mem v).mpr hv)).2⟩
  intro rest hsuffix
  induction rest with
  | nil => exact nofun
  | cons c rest ih =>
      have hsuffix' := (List.suffix_cons c rest).trans hsuffix
      have hnew : ∀ v ∈ c, (d.leastLayers (c :: rest)).getD v 0 = d.leastLayerOf c rest :=
        fun v hv => getD_leastLayers_of_mem hv (h.lt hsuffix hv)
      have hold : ∀ v ∈ rest.flatten, (d.leastLayers (c :: rest)).getD v 0 =
          (d.leastLayers rest).getD v 0 := fun v hv =>
        getD_leastLayers_of_not_mem (h.not_mem hsuffix hv)
      have hleast : ∀ v ∈ c, d.leastLayer (d.leastLayers rest) v ≤ d.leastLayerOf c rest :=
        fun v hv => le_foldl_max (List.mem_map_of_mem hv)
      intro v hv
      rcases List.mem_append.mp hv with hv | hv
      · rw [hnew v hv]
        refine ⟨fun w hw => ?_, fun w hw => ?_⟩
        · rcases h.positive c rest hsuffix v hv w hw with hwc | hwr
          · exact Nat.le_of_eq (hnew w hwc)
          · rw [hold w hwr]
            exact Nat.le_trans (le_leastLayer_of_positive hw) (hleast v hv)
        · rw [hold w (h.negative c rest hsuffix v hv w hw)]
          exact Nat.lt_of_lt_of_le (lt_leastLayer_of_negative hw) (hleast v hv)
      · obtain ⟨hpositive, hnegative⟩ := ih hsuffix' v hv
        rw [hold v hv]
        refine ⟨fun w hw => ?_, fun w hw => ?_⟩
        · rw [hold w (h.closed hsuffix' hv (.inl hw))]
          exact hpositive w hw
        · rw [hold w (h.closed hsuffix' hv (.inr hw))]
          exact hnegative w hw

/-- The layer of a component is the number of components after it. -/
theorem getD_separateLayers (h : d.IsStratifiable cs) {c : List Nat} {rest : List (List Nat)}
    (hsuffix : c :: rest <:+ cs) (hv : v ∈ c) : (d.separateLayers cs).getD v 0 = rest.length := by
  obtain ⟨front, rfl⟩ := hsuffix
  have hperm : ((front ++ c :: rest).reverse.flatten).Perm (front ++ c :: rest).flatten :=
    List.Perm.flatten (List.reverse_perm _)
  have hget : (front ++ c :: rest).reverse[rest.length]? = some c := by simp
  have hlt := (h.mem v).mp (List.mem_flatten.mpr
    ⟨c, List.mem_append_right _ List.mem_cons_self, hv⟩)
  rw [separateLayers, Array.getD_eq_getD_getElem?,
    Graph.getElem?_componentOf (hperm.nodup_iff.mpr h.nodup) hget hv hlt]
  rfl

theorem isLayering_separateLayers (h : d.IsStratifiable cs) :
    d.IsLayering (d.separateLayers cs) := by
  have hbelow : ∀ {c rest v w}, c :: rest <:+ cs → v ∈ c → w ∈ rest.flatten →
      (d.separateLayers cs).getD w 0 < (d.separateLayers cs).getD v 0 := by
    intro c rest v w hsuffix hv hw
    obtain ⟨e, tail, htail, hwe⟩ := IsStratifiable.exists_suffix hw
    rw [getD_separateLayers h hsuffix hv, getD_separateLayers h
      (htail.trans ((List.suffix_cons c rest).trans hsuffix)) hwe]
    exact htail.length_le
  refine ⟨fun v hv w hw => ?_, fun v hv w hw => ?_⟩
  · obtain ⟨c, rest, hsuffix, hvc⟩ := IsStratifiable.exists_suffix ((h.mem v).mpr hv)
    rcases h.positive c rest hsuffix v hvc w hw with hwc | hwr
    · exact Nat.le_of_eq ((getD_separateLayers h hsuffix hwc).trans
        (getD_separateLayers h hsuffix hvc).symm)
    · exact Nat.le_of_lt (hbelow hsuffix hvc hwr)
  · obtain ⟨c, rest, hsuffix, hvc⟩ := IsStratifiable.exists_suffix ((h.mem v).mpr hv)
    exact hbelow hsuffix hvc (h.negative c rest hsuffix v hvc w hw)

theorem isLayering_layers (h : d.IsStratifiable cs) (strategy : LayerStrategy) :
    d.IsLayering (d.layers strategy cs) :=
  match strategy with
  | .min => isLayering_leastLayers h
  | .max => isLayering_separateLayers h

end Dependencies

/-! ### Simplified axioms -/

namespace GroundAxiom

theorem exists_of_mem_simplify {axioms : List GroundAxiom} {x : GroundAxiom}
    (h : x ∈ simplify axioms) : ∃ y ∈ axioms, x = y.ordered := by
  have hfold : ∀ (xs kept : List GroundAxiom), x ∈ xs.foldl insertUndominated kept →
      x ∈ kept ∨ x ∈ xs := by
    intro xs
    induction xs with
    | nil => exact fun _ => .inl
    | cons y xs ih =>
        intro kept hx
        rcases ih _ hx with hx | hx
        · rw [insertUndominated] at hx
          split at hx
          · exact .inl hx
          · rcases List.mem_append.mp hx with hx | hx
            · exact .inl (List.mem_of_mem_filter hx)
            · exact .inr (List.mem_singleton.mp hx ▸ List.mem_cons_self)
        · exact .inr (List.mem_cons_of_mem y hx)
  have hx := (hfold _ [] h).resolve_left List.not_mem_nil
  obtain ⟨y, hy, rfl⟩ := List.mem_map.mp (List.mem_of_mem_filter hx)
  exact ⟨y, hy, rfl⟩

end GroundAxiom

namespace StratifiedAxioms

/-- Axioms with layers that respect what they require. -/
structure IsStratified (s : StratifiedAxioms) : Prop where
  unique : (s.layers.map (·.1)).Nodup
  layered : ∀ x ∈ s.axioms, ∃ layer, (x.effect, layer) ∈ s.layers ∧
    ∀ l ∈ x.condition, ∀ below, (l.atom, below) ∈ s.layers →
      below ≤ layer ∧ (l.negated = true → below < layer)

/-- Stratified axioms that are among given ones, up to the order of their conditions. -/
structure IsFrom (s : StratifiedAxioms) (given : List GroundAxiom) : Prop where
  axioms : ∀ x ∈ s.axioms, ∃ y ∈ given, x = y.ordered
  layers : ∀ p ∈ s.layers, ∃ y ∈ given, y.effect = p.1

open Dependencies

/-- The simplified axioms, grouped by component, and the layers of the atoms. -/
def layered (relevant : List GroundAxiom) (strategy : LayerStrategy) : StratifiedAxioms where
  axioms := (ofAxioms relevant).graph.components.flatten.flatMap fun v =>
    ((ofAxioms relevant).axioms.map GroundAxiom.simplify).getD v []
  layers := (ofAxioms relevant).graph.components.flatten.filterMap fun v =>
    ((ofAxioms relevant).atoms[v]?).map fun a =>
      (a, ((ofAxioms relevant).layers strategy (ofAxioms relevant).graph.components).getD v 0)

/-- No negation is found inside a component. -/
def IsAccepted (relevant : List GroundAxiom) : Prop :=
  (ofAxioms relevant).negativeCycle? (Graph.componentOf (ofAxioms relevant).atoms.size
    (ofAxioms relevant).graph.components) = none

section Compute

variable {actions : List GroundAction} {axioms relevant : List GroundAxiom} {goal : List Literal}
  {strategy : LayerStrategy} {s : StratifiedAxioms} {a : Atom} {x : GroundAxiom}

theorem gives_compute_of_isAccepted
    (h : IsAccepted (relevantAxioms axioms (goal ++ actions.flatMap (·.conditionLiterals)))) :
    (compute actions axioms goal strategy).Gives
      (layered (relevantAxioms axioms (goal ++ actions.flatMap (·.conditionLiterals))) strategy) := by
  rw [IsAccepted] at h
  simp only [compute, h]
  exact (Compilation.gives_log _ _).bind (Compilation.gives_pure _)

/-- The strategy does not matter to the failure. -/
theorem exists_fails_compute
    (h : ¬ IsAccepted (relevantAxioms axioms (goal ++ actions.flatMap (·.conditionLiterals)))) :
    ∃ text, ∀ strategy, (compute actions axioms goal strategy).Fails (.notStratifiable text) := by
  obtain ⟨_, hcycle⟩ := Option.ne_none_iff_exists'.mp h
  simp only [compute, hcycle]
  exact ⟨_, fun _ => (Compilation.gives_log _ _).bind_fails (Compilation.fails_throw _)⟩

theorem fails_compute_of_not_isAccepted
    (h : ¬ IsAccepted (relevantAxioms axioms (goal ++ actions.flatMap (·.conditionLiterals)))) :
    ∃ text, (compute actions axioms goal strategy).Fails (.notStratifiable text) :=
  (exists_fails_compute h).imp fun _ hfails => hfails strategy

theorem eq_layered_of_yields (h : (compute actions axioms goal strategy).Yields s) :
    IsAccepted (relevantAxioms axioms (goal ++ actions.flatMap (·.conditionLiterals))) ∧
      s = layered (relevantAxioms axioms (goal ++ actions.flatMap (·.conditionLiterals)))
        strategy := by
  rw [compute] at h
  obtain ⟨-, -, h⟩ := Compilation.yields_bind h
  split at h
  next => exact absurd h Compilation.not_yields_throw
  next hcycle => exact ⟨hcycle, (Compilation.yields_pure h).symm⟩

theorem mem_layers_layered (h : IsAccepted relevant) {n : Nat} :
    (a, n) ∈ (layered relevant strategy).layers ↔ ∃ v : Nat, (ofAxioms relevant).atoms[v]? = some a ∧
      ((ofAxioms relevant).layers strategy (ofAxioms relevant).graph.components).getD v 0 = n := by
  have hstrat := isStratifiable_of_components h
  simp only [layered, List.mem_filterMap, Option.map_eq_some_iff, Prod.mk.injEq, ↓existsAndEq,
    true_and]
  refine exists_congr fun v => and_iff_right_of_imp fun hv => ?_
  exact (hstrat.mem v).mpr (Array.getElem?_eq_some_iff.mp hv.1).1

/-- The atoms with a layer are those with an axiom. -/
theorem mem_map_layers_layered (h : IsAccepted relevant) :
    a ∈ (layered relevant strategy).layers.map (·.1) ↔ ∃ x ∈ relevant, x.effect = a := by
  rw [← exists_getElem?_atoms, List.mem_map]
  constructor
  · rintro ⟨⟨a, n⟩, hp, rfl⟩
    obtain ⟨v, hv, -⟩ := (mem_layers_layered h).mp hp
    exact ⟨v, hv⟩
  · intro ⟨v, hv⟩
    exact ⟨_, (mem_layers_layered h).mpr ⟨v, hv, rfl⟩, rfl⟩

/-- The axioms that are kept for an atom are those that remain when its axioms are simplified. -/
theorem mem_axioms_layered (h : IsAccepted relevant) : x ∈ (layered relevant strategy).axioms ↔
    ∃ a, (∃ y ∈ relevant, y.effect = a) ∧
      x ∈ GroundAxiom.simplify (relevant.filter (·.effect = a)) := by
  have hstrat := isStratifiable_of_components h
  have hsimplified : ∀ {v : Nat} {a : Atom}, (ofAxioms relevant).atoms[v]? = some a →
      ((ofAxioms relevant).axioms.map GroundAxiom.simplify).getD v [] =
        GroundAxiom.simplify (relevant.filter (·.effect = a)) := by
    intro v a hv
    rw [Array.getD_eq_getD_getElem?, Array.getElem?_map, getElem?_axioms hv]
    rfl
  rw [layered, List.mem_flatMap]
  constructor
  · intro ⟨v, hv, hx⟩
    have hget := Array.getElem?_eq_getElem ((hstrat.mem v).mp hv)
    exact ⟨_, exists_getElem?_atoms.mp ⟨v, hget⟩, hsimplified hget ▸ hx⟩
  · intro ⟨a, ha, hx⟩
    obtain ⟨v, hv⟩ := exists_getElem?_atoms.mpr ha
    exact ⟨v, (hstrat.mem v).mpr (Array.getElem?_eq_some_iff.mp hv).1, (hsimplified hv).symm ▸ hx⟩

theorem exists_of_mem_axioms_layered (h : IsAccepted relevant)
    (hx : x ∈ (layered relevant strategy).axioms) : ∃ y ∈ relevant, x = y.ordered := by
  obtain ⟨a, -, hx⟩ := (mem_axioms_layered h).mp hx
  obtain ⟨y, hy, rfl⟩ := GroundAxiom.exists_of_mem_simplify hx
  exact ⟨y, List.mem_of_mem_filter hy, rfl⟩

/-- The layers respect what an axiom requires, whether or not it is kept. -/
theorem layer_le_of_mem_condition (h : IsAccepted relevant) {y : GroundAxiom} (hy : y ∈ relevant)
    {l : Literal} (hl : l ∈ y.condition) {n m : Nat}
    (hn : (y.effect, n) ∈ (layered relevant strategy).layers)
    (hm : (l.atom, m) ∈ (layered relevant strategy).layers) :
    m ≤ n ∧ (l.negated = true → m < n) := by
  have hlayering := isLayering_layers (isStratifiable_of_components h) strategy
  obtain ⟨v, hv, rfl⟩ := (mem_layers_layered h).mp hn
  obtain ⟨w, hw, rfl⟩ := (mem_layers_layered h).mp hm
  have hlt := (Array.getElem?_eq_some_iff.mp hv).1
  have hreq : w ∈ ((ofAxioms relevant).requirements l.negated).getD v [] :=
    (mem_requirements hv).mpr ⟨y, hy, rfl, l, hl, rfl, hw⟩
  cases hneg : l.negated with
  | false =>
      rw [hneg] at hreq
      exact ⟨hlayering.positive v hlt w hreq, nofun⟩
  | true =>
      rw [hneg] at hreq
      have hlt := hlayering.negative v hlt w hreq
      exact ⟨Nat.le_of_lt hlt, fun _ => hlt⟩

theorem isStratified_layered (h : IsAccepted relevant) : (layered relevant strategy).IsStratified := by
  refine ⟨?_, fun x hx => ?_⟩
  · rw [layered, List.map_filterMap]
    refine List.Nodup.filterMap (fun v w a hv hw => ?_) (isStratifiable_of_components h).nodup
    simp only [Option.map_map, Function.comp_def, Option.map_id', Option.mem_def] at hv hw
    exact inj_atoms hv hw
  · obtain ⟨y, hy, rfl⟩ := exists_of_mem_axioms_layered h hx
    obtain ⟨v, hv⟩ := exists_getElem?_atoms.mpr ⟨y, hy, rfl⟩
    have hn : (y.effect, _) ∈ (layered relevant strategy).layers :=
      (mem_layers_layered h).mpr ⟨v, hv, rfl⟩
    exact ⟨_, hn, fun l hl below hbelow =>
      layer_le_of_mem_condition h hy (mem_orderedSet.mp hl) hn hbelow⟩

theorem isStratified_of_yields (h : (compute actions axioms goal strategy).Yields s) :
    s.IsStratified ∧ s.IsFrom axioms := by
  obtain ⟨haccepted, rfl⟩ := eq_layered_of_yields h
  refine ⟨isStratified_layered haccepted, fun x hx => ?_, fun p hp => ?_⟩
  · obtain ⟨y, hy, rfl⟩ := exists_of_mem_axioms_layered haccepted hx
    exact ⟨y, List.mem_of_mem_filter hy, rfl⟩
  · obtain ⟨y, hy, he⟩ := (mem_map_layers_layered haccepted).mp (List.mem_map_of_mem hp)
    exact ⟨y, List.mem_of_mem_filter hy, he⟩

end Compute
end StratifiedAxioms
end FinitePlanning
