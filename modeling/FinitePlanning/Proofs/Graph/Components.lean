import FinitePlanning.Graph.Basic
import FinitePlanning.Proofs.Collections

/-!
What a traversal visits: the roots, and with each vertex all of its successors. The components of a
graph partition its vertices, and no edge leads from a component to an earlier one.
-/

namespace FinitePlanning
namespace Graph

section Visits

variable {g : Graph} {pending : List Step} {t : Traversal} {roots : List Nat} {v w : Nat}

namespace Traversal

theorem isFresh_discover : (t.discover v).isFresh w = if w = v then false else t.isFresh w := by
  by_cases h : w = v
  · subst h
    by_cases hw : w < t.fresh.size <;> simp [isFresh, discover, hw]
  · simp [isFresh, discover, Array.getD_eq_getD_getElem?,
      Ne.symm h, h]

@[simp] theorem isFresh_finish : (t.finish v).isFresh w = t.isFresh w := rfl

theorem not_isFresh_discover (h : t.isFresh w = false) : (t.discover v).isFresh w = false := by
  rw [isFresh_discover, h, ite_self]

end Traversal

/-- Discovered vertices and those that are to be entered are discovered in the end. -/
theorem isFresh_explore (h : t.isFresh v = false ∨ .enter v ∈ pending) :
    (g.explore pending t).isFresh v = false := by
  induction pending, t using explore.induct g with
  | case1 t =>
      rw [explore]
      exact h.resolve_right List.not_mem_nil
  | case2 w rest t ih =>
      rw [explore]
      exact ih (h.imp_right fun h => (List.mem_cons.mp h).resolve_left Step.noConfusion)
  | case3 w rest t hw _ ih =>
      rw [explore, dif_pos hw]
      refine ih ?_
      rcases h with h | h
      · exact .inl (Traversal.not_isFresh_discover h)
      · rcases List.mem_cons.mp h with h | h
        · cases h
          exact .inl (by rw [Traversal.isFresh_discover, if_pos rfl])
        · exact .inr (List.mem_append_right _ (List.mem_cons_of_mem _ h))
  | case4 w rest t hw ih =>
      rw [explore, dif_neg hw]
      refine ih ?_
      rcases h with h | h
      · exact .inl h
      · rcases List.mem_cons.mp h with h | h
        · cases h
          exact .inl (Bool.eq_false_iff.mpr hw)
        · exact .inr h

/-- The successors of discovered vertices were discovered, or are to be entered. -/
def IsClosed (g : Graph) (pending : List Step) (t : Traversal) : Prop :=
  ∀ v w, v < g.size → t.isFresh v = false → w ∈ g.successorsOf v →
    t.isFresh w = false ∨ .enter w ∈ pending

theorem isClosed_explore (h : g.IsClosed pending t) : g.IsClosed [] (g.explore pending t) := by
  induction pending, t using explore.induct g with
  | case1 t =>
      rw [explore]
      exact h
  | case2 u rest t ih =>
      rw [explore]
      refine ih fun v w hv hfresh hw => (h v w hv hfresh hw).imp_right fun h => ?_
      exact (List.mem_cons.mp h).resolve_left Step.noConfusion
  | case3 u rest t hu _ ih =>
      rw [explore, dif_pos hu]
      refine ih fun v w hv hfresh hw => ?_
      by_cases hvu : v = u
      · refine .inr (List.mem_append_left _ (List.mem_map.mpr ⟨w, hvu ▸ hw, rfl⟩))
      · rw [Traversal.isFresh_discover, if_neg hvu] at hfresh
        rcases h v w hv hfresh hw with h | h
        · exact .inl (Traversal.not_isFresh_discover h)
        · rcases List.mem_cons.mp h with h | h
          · cases h
            exact .inl (by rw [Traversal.isFresh_discover, if_pos rfl])
          · exact .inr (List.mem_append_right _ (List.mem_cons_of_mem _ h))
  | case4 u rest t hu ih =>
      rw [explore, dif_neg hu]
      refine ih fun v w hv hfresh hw => ?_
      rcases h v w hv hfresh hw with h | h
      · exact .inl h
      · rcases List.mem_cons.mp h with h | h
        · cases h
          exact .inl (Bool.eq_false_iff.mpr hu)
        · exact .inr h

theorem isFresh_start (h : v < g.size) : g.start.isFresh v = true := by
  simp [start, Traversal.isFresh, h]

theorem isFresh_traverse_root (h : v ∈ roots) : (g.traverse roots).isFresh v = false :=
  isFresh_explore (.inr (List.mem_map.mpr ⟨v, h, rfl⟩))

theorem isFresh_traverse_successor (hv : v < g.size)
    (h : (g.traverse roots).isFresh v = false) (hw : w ∈ g.successorsOf v) :
    (g.traverse roots).isFresh w = false := by
  refine (isClosed_explore (fun u x hu hfresh _ => ?_) v w hv h hw).resolve_right List.not_mem_nil
  rw [isFresh_start hu] at hfresh
  cases hfresh

end Visits

variable {g : Graph} {pending : List Step} {t : Traversal} {v w : Nat}

/-- Each vertex is discovered once, namely those that are no longer fresh. -/
theorem discovered_explore (g : Graph) (pending : List Step) (t : Traversal) :
    ∃ found, (g.explore pending t).discovered = found ++ t.discovered ∧ found.Nodup ∧
      ∀ v, v ∈ found ↔ t.isFresh v = true ∧ (g.explore pending t).isFresh v = false := by
  induction pending, t using explore.induct g with
  | case1 t =>
      refine ⟨[], by rw [explore]; rfl, List.nodup_nil, fun v => ?_⟩
      rw [explore]
      simp
  | case2 u rest t ih =>
      rw [explore]
      exact ih
  | case3 u rest t hu _ ih =>
      rw [explore, dif_pos hu]
      obtain ⟨found, hfound, hnodup, hmem⟩ := ih
      have hentered : (t.discover u).isFresh u = false := by
        rw [Traversal.isFresh_discover, if_pos rfl]
      have hend : (g.explore ((g.successorsOf u).map .enter ++ .leave u :: rest)
          (t.discover u)).isFresh u = false := isFresh_explore (.inl hentered)
      have hnew : u ∉ found := fun h => by
        rw [((hmem u).mp h).1] at hentered
        cases hentered
      refine ⟨found ++ [u], ?_, ?_, fun v => ?_⟩
      · rw [hfound, List.append_assoc]
        rfl
      · exact List.nodup_append.mpr ⟨hnodup, List.pairwise_singleton _ u,
          fun v hv w hw he => hnew (List.mem_singleton.mp hw ▸ he ▸ hv)⟩
      · rw [List.mem_append, List.mem_singleton, hmem, Traversal.isFresh_discover]
        by_cases hv : v = u
        · subst hv
          simp [hu, hend]
        · simp [hv]
  | case4 u rest t hu ih =>
      rw [explore, dif_neg hu]
      exact ih

/-- A vertex is left if it was entered. -/
theorem mem_finished_explore (h : v ∈ t.finished ∨ .leave v ∈ pending ∨
      t.isFresh v = true ∧ (g.explore pending t).isFresh v = false) :
    v ∈ (g.explore pending t).finished := by
  induction pending, t using explore.induct g with
  | case1 t =>
      rw [explore] at h ⊢
      rcases h with h | h | ⟨h, hend⟩
      · exact h
      · exact absurd h List.not_mem_nil
      · rw [h] at hend
        cases hend
  | case2 u rest t ih =>
      rw [explore] at h ⊢
      refine ih ?_
      rcases h with h | h | h
      · exact .inl (List.mem_cons_of_mem u h)
      · rcases List.mem_cons.mp h with h | h
        · cases h
          exact .inl List.mem_cons_self
        · exact .inr (.inl h)
      · exact .inr (.inr h)
  | case3 u rest t hu _ ih =>
      rw [explore, dif_pos hu] at h ⊢
      refine ih ?_
      rcases h with h | h | ⟨h, hend⟩
      · exact .inl h
      · exact .inr (.inl (List.mem_append_right _
          (List.mem_cons_of_mem _ ((List.mem_cons.mp h).resolve_left Step.noConfusion))))
      · by_cases hv : v = u
        · exact .inr (.inl (List.mem_append_right _ (hv ▸ List.mem_cons_self)))
        · refine .inr (.inr ⟨?_, hend⟩)
          rw [Traversal.isFresh_discover, if_neg hv, h]
  | case4 u rest t hu ih =>
      rw [explore, dif_neg hu] at h ⊢
      refine ih ?_
      rcases h with h | h | h
      · exact .inl h
      · exact .inr (.inl ((List.mem_cons.mp h).resolve_left Step.noConfusion))
      · exact .inr (.inr h)

theorem mem_finished_traverse (h : v < g.size) : v ∈ (g.traverse g.vertices).finished :=
  mem_finished_explore (.inr (.inr ⟨isFresh_start h, isFresh_traverse_root (List.mem_range.mpr h)⟩))

/-! ### Edges turned round -/

section Reverse

theorem foldl_turn_spec (u : Nat) (targets : List Nat) (arcs : Array (List Nat)) :
    (targets.foldl (fun arcs w => arcs.modify w (u :: ·)) arcs).size = arcs.size ∧
      (∀ i x, x ∈ arcs.getD i [] →
        x ∈ (targets.foldl (fun arcs w => arcs.modify w (u :: ·)) arcs).getD i []) ∧
      ∀ w ∈ targets, w < arcs.size →
        u ∈ (targets.foldl (fun arcs w => arcs.modify w (u :: ·)) arcs).getD w [] := by
  induction targets generalizing arcs with
  | nil => exact ⟨rfl, fun _ _ => id, nofun⟩
  | cons target targets ih =>
      obtain ⟨hsize, hkeep, hnew⟩ := ih (arcs.modify target (u :: ·))
      rw [Array.size_modify] at hsize hnew
      have hmodify : ∀ i x, x ∈ arcs.getD i [] → x ∈ (arcs.modify target (u :: ·)).getD i [] := by
        intro i x hx
        by_cases hi : i < arcs.size
        · by_cases ht : target = i <;> simp_all [Array.getD, Array.getElem_modify]
        · simp [Array.getD, hi] at hx
      refine ⟨hsize, fun i x hx => hkeep i x (hmodify i x hx), ?_⟩
      refine List.forall_mem_cons.mpr ⟨fun ht => hkeep target u ?_, hnew⟩
      simp [Array.getD, ht, Array.getElem_modify]

theorem foldl_reverse_spec (vertices : List Nat) (arcs : Array (List Nat)) :
    (vertices.foldl (fun arcs u => (g.successorsOf u).foldl
        (fun arcs w => arcs.modify w (u :: ·)) arcs) arcs).size = arcs.size ∧
      (∀ i x, x ∈ arcs.getD i [] → x ∈ (vertices.foldl (fun arcs u => (g.successorsOf u).foldl
        (fun arcs w => arcs.modify w (u :: ·)) arcs) arcs).getD i []) ∧
      ∀ u ∈ vertices, ∀ w ∈ g.successorsOf u, w < arcs.size →
        u ∈ (vertices.foldl (fun arcs u => (g.successorsOf u).foldl
          (fun arcs w => arcs.modify w (u :: ·)) arcs) arcs).getD w [] := by
  induction vertices generalizing arcs with
  | nil => exact ⟨rfl, fun _ _ => id, nofun⟩
  | cons u vertices ih =>
      obtain ⟨hsize, hkeep, hnew⟩ := foldl_turn_spec u (g.successorsOf u) arcs
      obtain ⟨hsize', hkeep', hnew'⟩ := ih ((g.successorsOf u).foldl
        (fun arcs w => arcs.modify w (u :: ·)) arcs)
      rw [hsize] at hsize' hnew'
      exact ⟨hsize', fun i x hx => hkeep' i x (hkeep i x hx),
        List.forall_mem_cons.mpr ⟨fun w hw hlt => hkeep' w u (hnew w hw hlt), hnew'⟩⟩

theorem size_reverse (g : Graph) : g.reverse.size = g.size :=
  (foldl_reverse_spec g.vertices (Array.replicate g.size [])).1.trans Array.size_replicate

theorem mem_successorsOf_reverse (hv : v < g.size) (hw : w < g.size)
    (h : w ∈ g.successorsOf v) : v ∈ g.reverse.successorsOf w :=
  (foldl_reverse_spec g.vertices (Array.replicate g.size [])).2.2 v (List.mem_range.mpr hv) w h
    (Array.size_replicate.symm ▸ hw)

end Reverse

/-! ### Components -/

/-- What holds while components are collected. -/
structure Collects (g : Graph) (acc : Traversal × List (List Nat)) : Prop where
  closed : g.IsClosed [] acc.1
  fresh_lt : ∀ v, acc.1.isFresh v = true → v < g.size
  nodup : acc.2.flatten.Nodup
  mem : ∀ v, v ∈ acc.2.flatten ↔ v < g.size ∧ acc.1.isFresh v = false
  nonempty : ∀ c ∈ acc.2, c ≠ []
  /-- No edge leads from a component to a later one. -/
  apart : acc.2.Pairwise fun later earlier => ∀ v ∈ earlier, ∀ w ∈ later, w ∉ g.successorsOf v

theorem collects_start (g : Graph) : g.Collects (g.start, []) := by
  have hlt : ∀ v, g.start.isFresh v = true → v < g.size := by
    intro v hv
    by_contra hle
    simp [start, Traversal.isFresh, hle] at hv
  refine ⟨fun v w hv hfresh _ => ?_, hlt, List.nodup_nil, fun v => ?_,
    List.forall_mem_nil _, .nil⟩
  · rw [isFresh_start hv] at hfresh
    cases hfresh
  · refine iff_of_false List.not_mem_nil ?_
    rintro ⟨hv, hfresh⟩
    rw [isFresh_start hv] at hfresh
    cases hfresh

theorem flatten_collect (acc : Traversal × List (List Nat)) (root : Nat) :
    (g.collect acc root).2.flatten = (g.collect acc root).1.discovered ++ acc.2.flatten := by
  rw [collect]
  dsimp only
  split
  next h => rw [List.isEmpty_iff.mp h, List.nil_append]
  next => rfl

theorem Collects.collect {acc : Traversal × List (List Nat)} (h : g.Collects acc) (root : Nat) :
    g.Collects (g.collect acc root) ∧ (g.collect acc root).1.isFresh root = false ∧
      ∀ v, acc.1.isFresh v = false → (g.collect acc root).1.isFresh v = false := by
  obtain ⟨found, hfound, hnodup, hmem⟩ := discovered_explore g [.enter root]
    { acc.1 with discovered := [], finished := [] }
  have hdiscovered : (g.collect acc root).1.discovered = found := hfound.trans (List.append_nil _)
  have hmem : ∀ v, v ∈ found ↔ acc.1.isFresh v = true ∧ (g.collect acc root).1.isFresh v = false :=
    hmem
  have hkeep : ∀ v, acc.1.isFresh v = false → (g.collect acc root).1.isFresh v = false :=
    fun v hv => isFresh_explore (.inl hv)
  have hold : ∀ v, v ∈ acc.2.flatten → v ∉ found := fun v hv hf => by
    have := ((h.mem v).mp hv).2
    rw [((hmem v).mp hf).1] at this
    cases this
  have hflat := flatten_collect (g := g) acc root
  rw [hdiscovered] at hflat
  refine ⟨⟨isClosed_explore fun v w hv hfresh hw => (h.closed v w hv hfresh hw).imp_right
      fun h => absurd h List.not_mem_nil, fun v hv => ?_, ?_, fun v => ?_, ?_, ?_⟩,
    isFresh_explore (.inr (List.mem_singleton_self _)), hkeep⟩
  · refine h.fresh_lt v ?_
    cases hfresh : acc.1.isFresh v with
    | true => rfl
    | false =>
        rw [hkeep v hfresh] at hv
        cases hv
  · rw [hflat]
    exact List.nodup_append.mpr ⟨hnodup, h.nodup, fun v hv w hw he => hold w hw (he ▸ hv)⟩
  · rw [hflat, List.mem_append, hmem, h.mem]
    cases hfresh : acc.1.isFresh v with
    | true => simpa using fun _ => h.fresh_lt v hfresh
    | false => simpa using fun _ => hkeep v hfresh
  · rw [Graph.collect]
    dsimp only
    split
    next => exact h.nonempty
    next hne =>
      exact List.forall_mem_cons.mpr ⟨fun he => hne (List.isEmpty_iff.mpr he), h.nonempty⟩
  · rw [Graph.collect]
    dsimp only
    split
    next => exact h.apart
    next =>
      refine List.pairwise_cons.mpr ⟨fun earlier hearlier v hv w hw hedge => ?_, h.apart⟩
      obtain ⟨hlt, hfresh⟩ := (h.mem v).mp (List.mem_flatten.mpr ⟨earlier, hearlier, hv⟩)
      have hw : w ∈ found := hdiscovered ▸ hw
      have hclosed := (h.closed v w hlt hfresh hedge).resolve_right List.not_mem_nil
      rw [((hmem w).mp hw).1] at hclosed
      cases hclosed

theorem Collects.foldl {acc : Traversal × List (List Nat)} (h : g.Collects acc)
    (roots : List Nat) : g.Collects (roots.foldl g.collect acc) ∧
      (∀ v ∈ roots, (roots.foldl g.collect acc).1.isFresh v = false) ∧
      ∀ v, acc.1.isFresh v = false → (roots.foldl g.collect acc).1.isFresh v = false := by
  induction roots generalizing acc with
  | nil => exact ⟨h, nofun, fun _ => id⟩
  | cons root roots ih =>
      obtain ⟨hstep, hroot, hkeep⟩ := h.collect root
      obtain ⟨hall, hroots, hkeep'⟩ := ih hstep
      exact ⟨hall, List.forall_mem_cons.mpr ⟨hkeep' root hroot, hroots⟩,
        fun v hv => hkeep' v (hkeep v hv)⟩

/-- A partition of the vertices in which edges lead to the same component or later ones. -/
structure IsOrderedPartition (g : Graph) (cs : List (List Nat)) : Prop where
  nodup : cs.flatten.Nodup
  mem : ∀ v, v ∈ cs.flatten ↔ v < g.size
  nonempty : ∀ c ∈ cs, c ≠ []
  forward : cs.Pairwise fun c d => ∀ v ∈ c, ∀ w ∈ d, v ∉ g.successorsOf w

theorem isOrderedPartition_components (g : Graph) : g.IsOrderedPartition g.components := by
  obtain ⟨hcollects, hroots, -⟩ := (collects_start g.reverse).foldl (g.traverse g.vertices).finished
  rw [components]
  dsimp only
  revert hcollects hroots
  generalize (g.traverse g.vertices).finished.foldl g.reverse.collect (g.reverse.start, []) = acc
  intro hcollects hroots
  have hmem : ∀ v, v ∈ acc.2.flatten ↔ v < g.size := by
    intro v
    rw [hcollects.mem, size_reverse]
    exact and_iff_left_of_imp fun hv => hroots v (mem_finished_traverse hv)
  have hperm : (acc.2.reverse.map fun c => c.mergeSort fun v w =>
      (positions g.size (g.traverse g.vertices).discovered.reverse).getD v 0 ≤
        (positions g.size (g.traverse g.vertices).discovered.reverse).getD w 0).flatten.Perm
      acc.2.flatten := by
    refine List.Perm.trans ?_ (List.Perm.flatten (List.reverse_perm acc.2))
    induction acc.2.reverse with
    | nil => exact .nil
    | cons c cs ih => exact (List.mergeSort_perm c _).append ih
  refine ⟨hperm.nodup_iff.mpr hcollects.nodup, fun v => hperm.mem_iff.trans (hmem v),
    fun c hc => ?_, ?_⟩
  · obtain ⟨c', hc', rfl⟩ := List.mem_map.mp hc
    intro he
    refine hcollects.nonempty c' (List.mem_reverse.mp hc') (List.length_eq_zero_iff.mp ?_)
    rw [← List.length_mergeSort c', he, List.length_nil]
  rw [List.pairwise_map, List.pairwise_reverse]
  refine hcollects.apart.imp_of_mem fun {later earlier} hl he hapart v hv w hw hedge => ?_
  have hv := (List.mergeSort_perm _ _).subset hv
  have hw := (List.mergeSort_perm _ _).subset hw
  exact hapart v hv w hw (mem_successorsOf_reverse
    ((hmem w).mp (List.mem_flatten.mpr ⟨later, hl, hw⟩))
    ((hmem v).mp (List.mem_flatten.mpr ⟨earlier, he, hv⟩)) hedge)

/-! ### Numbers of components -/

section ComponentOf

variable {α : Type} {a : α} {ns : Array α}

theorem size_foldl_set (c : List Nat) (a : α) (ns : Array α) :
    (c.foldl (·.setIfInBounds · a) ns).size = ns.size := by
  induction c generalizing ns with
  | nil => rfl
  | cons u c ih => exact (ih _).trans (Array.size_setIfInBounds)

theorem getElem?_foldl_set (c : List Nat) (a : α) (ns : Array α) (v : Nat) :
    (c.foldl (·.setIfInBounds · a) ns)[v]? =
      if v ∈ c ∧ v < ns.size then some a else ns[v]? := by
  induction c generalizing ns with
  | nil => simp
  | cons u c ih =>
      rw [List.foldl_cons, ih, Array.size_setIfInBounds, Array.getElem?_setIfInBounds]
      by_cases hv : v < ns.size <;> by_cases hu : u = v <;> by_cases hc : v ∈ c <;>
        simp [hv, hu, hc, Ne.symm]

/-- A vertex has the number of the component that it is in. -/
theorem getElem?_foldl_numbers_of_not_mem {v : Nat} (cs : List (List Nat)) (k : Nat)
    (ns : Array Nat) (hv : v ∉ cs.flatten) :
    ((cs.zipIdx k).foldl (fun ns (c, i) => c.foldl (·.setIfInBounds · i) ns) ns)[v]? = ns[v]? := by
  induction cs generalizing k ns with
  | nil => rfl
  | cons d cs ih =>
      rw [List.flatten_cons, List.mem_append, not_or] at hv
      rw [List.zipIdx_cons, List.foldl_cons, ih _ _ hv.2, getElem?_foldl_set, if_neg fun h =>
        hv.1 h.1]

theorem getElem?_foldl_numbers {cs : List (List Nat)} {i v : Nat} {c : List Nat}
    (hn : cs.flatten.Nodup) (hi : cs[i]? = some c) (hv : v ∈ c) (k : Nat) (ns : Array Nat)
    (hlt : v < ns.size) :
    ((cs.zipIdx k).foldl (fun ns (c, i) => c.foldl (·.setIfInBounds · i) ns) ns)[v]? =
      some (k + i) := by
  induction cs generalizing i k ns with
  | nil => cases hi
  | cons d cs ih =>
      rw [List.flatten_cons, List.nodup_append] at hn
      rw [List.zipIdx_cons, List.foldl_cons]
      cases i with
      | zero =>
          obtain rfl := Option.some.inj hi
          rw [getElem?_foldl_numbers_of_not_mem _ _ _ fun hmem => hn.2.2 v hv v hmem rfl,
            getElem?_foldl_set, if_pos ⟨hv, hlt⟩, Nat.add_zero]
      | succ i =>
          rw [ih hn.2.1 hi _ _ (by rwa [size_foldl_set]), Nat.add_right_comm, Nat.add_assoc]

theorem getElem?_componentOf {cs : List (List Nat)} {size i v : Nat} {c : List Nat}
    (hn : cs.flatten.Nodup) (hi : cs[i]? = some c) (hv : v ∈ c) (hlt : v < size) :
    (componentOf size cs)[v]? = some i := by
  simpa [componentOf] using
    getElem?_foldl_numbers hn hi hv 0 (Array.replicate size 0) (by simpa using hlt)

theorem getElem?_positions {order : List Nat} {size i v : Nat} (hn : order.Nodup)
    (hi : order[i]? = some v) (hlt : v < size) : (positions size order)[v]? = some i := by
  have hsingle : positions size order = componentOf size (order.map fun v => [v]) := by
    rw [positions, componentOf, List.zipIdx_map, List.foldl_map]
    rfl
  rw [hsingle]
  refine getElem?_componentOf ?_ ?_ (List.mem_singleton_self v) hlt
  · rwa [← List.flatMap_def, List.flatMap_singleton']
  · rw [List.getElem?_map, hi, Option.map_some]

end ComponentOf

end Graph
end FinitePlanning
