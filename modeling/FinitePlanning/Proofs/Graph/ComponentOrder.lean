import FinitePlanning.Proofs.Graph.Lowlink

/-!
The order of the components. They are in the order in which their vertices were left, last first,
and the vertices of each of them are in the order in which they were discovered. Both ways to find
the components keep to this, so that they give the same list.
-/

namespace FinitePlanning
namespace Graph

variable {g : Graph} {s : Lowlinks g.size} {t : Traversal} {frames frames' : List Frame}
  {left above below roots : List Nat} {c d : List Nat} {cs ds : List (List Nat)} {v w k : Nat}

/-- Some vertex was left after all vertices of another component. The vertices that were left are
given last first. -/
def IsLeftAfter (left c d : List Nat) : Prop :=
  ∃ r ∈ c, ∀ v ∈ d, [r, v].Sublist left

theorem IsLeftAfter.mono {left' : List Nat} (h : IsLeftAfter left c d) (hleft : left.Sublist left') :
    IsLeftAfter left' c d := by
  obtain ⟨r, hr, hd⟩ := h
  exact ⟨r, hr, fun v hv => (hd v hv).trans hleft⟩

theorem not_sublist_swap (hn : left.Nodup) (h : [v, w].Sublist left) : ¬[w, v].Sublist left := by
  intro h'
  induction left with
  | nil => cases h
  | cons u left ih =>
      obtain ⟨hu, hn⟩ := List.nodup_cons.mp hn
      cases h with
      | cons _ h =>
          cases h' with
          | cons _ h' => exact ih hn h h'
          | cons_cons _ _ => exact hu (h.subset (List.mem_cons_of_mem _ (List.mem_singleton_self _)))
      | cons_cons _ h =>
          cases h' with
          | cons _ h' => exact hu (h'.subset (List.mem_cons_of_mem _ (List.mem_singleton_self _)))
          | cons_cons _ _ => exact hu (h.subset (List.mem_singleton_self _))

theorem IsLeftAfter.asymm (hn : left.Nodup) (h : IsLeftAfter left c d) : ¬IsLeftAfter left d c := by
  rintro ⟨r', hr', hc⟩
  obtain ⟨r, hr, hd⟩ := h
  exact not_sublist_swap hn (hd r' hr') (hc r hr)

/-- Lists of components in the order in which these were left are equal if they have the same
elements. -/
theorem eq_of_isLeftAfter (hn : left.Nodup) (hcs : cs.Pairwise (IsLeftAfter left))
    (hds : ds.Pairwise (IsLeftAfter left)) (hmem : ∀ c, c ∈ cs ↔ c ∈ ds) : cs = ds := by
  have hnodup : ∀ {es : List (List Nat)}, es.Pairwise (IsLeftAfter left) → es.Nodup := fun h =>
    h.imp fun {c d} hc (he : c = d) => by
      subst he
      exact hc.asymm hn hc
  have hperm : cs.Perm ds := (List.perm_ext_iff_of_nodup (hnodup hcs) (hnodup hds)).mpr hmem
  exact hperm.eq_of_pairwise (fun _ _ _ _ h h' => absurd h' (h.asymm hn)) hcs hds

/-- The components of a graph are determined by the order that their vertices are to have. -/
theorem IsOrderedPartition.subset_of_sorted (hcs : g.IsOrderedPartition cs)
    (hds : g.IsOrderedPartition ds) (hc : g.AreConnected cs) (hd : g.AreConnected ds)
    {number : Nat → Nat}
    (hnumber : ∀ v < g.size, ∀ w < g.size, number v = number w → v = w)
    (hcs_sorted : ∀ c ∈ cs, c.Pairwise fun v w => number v ≤ number w)
    (hds_sorted : ∀ d ∈ ds, d.Pairwise fun v w => number v ≤ number w) : cs ⊆ ds := by
  intro c hcmem
  have hlt : ∀ {es e}, g.IsOrderedPartition es → e ∈ es → ∀ v ∈ e, v < g.size :=
    fun hes he v hv => (hes.mem v).mp (List.mem_flatten.mpr ⟨_, he, hv⟩)
  obtain ⟨v, hv⟩ := List.exists_mem_of_ne_nil c (hcs.nonempty c hcmem)
  have hvlt := hlt hcs hcmem v hv
  obtain ⟨d, hdmem, hvd⟩ := List.mem_flatten.mp ((hds.mem v).mpr hvlt)
  have hmem : ∀ w, w ∈ c ↔ w ∈ d := by
    intro w
    constructor
    · intro hw
      exact hds.mem_of_mutual hdmem hvd (hlt hcs hcmem w hw) (hc.reaches hcmem hv hw)
        (hc.reaches hcmem hw hv)
    · intro hw
      exact hcs.mem_of_mutual hcmem hv (hlt hds hdmem w hw) (hd.reaches hdmem hvd hw)
        (hd.reaches hdmem hw hvd)
  have hperm : c.Perm d := (List.perm_ext_iff_of_nodup
    ((List.pairwise_flatten.mp hcs.nodup).1 c hcmem)
    ((List.pairwise_flatten.mp hds.nodup).1 d hdmem)).mpr hmem
  have heq : c = d := hperm.eq_of_pairwise
    (fun v w hv hw hvw hwv => hnumber v (hlt hcs hcmem v hv) w (hlt hds hdmem w hw)
      (Nat.le_antisymm hvw hwv)) (hcs_sorted c hcmem) (hds_sorted d hdmem)
  exact heq ▸ hdmem

/-! ### Components that are collected along edges turned round -/

/-- What holds of the components that are collected, last first, while the vertices are passed in the
opposite order to that in which they were left. -/
structure CollectsInOrder (left later : List Nat) (cs : List (List Nat)) : Prop where
  root : ∀ c ∈ cs, ∃ r ∈ c, r ∈ later
  ordered : cs.Pairwise fun c d => IsLeftAfter left d c

theorem CollectsInOrder.collect {acc : Traversal × List (List Nat)} {left later earlier : List Nat}
    {root : Nat} (h : CollectsInOrder left later acc.2) (hleft : left = later ++ root :: earlier)
    (hearlier : ∀ v, acc.1.isFresh v = true → v ∈ root :: earlier) :
    CollectsInOrder left (later ++ [root]) (g.collect acc root).2 := by
  have hroot : ∀ c ∈ acc.2, ∃ r ∈ c, r ∈ later ++ [root] := fun c hc => by
    obtain ⟨r, hr, hlater⟩ := h.root c hc
    exact ⟨r, hr, List.mem_append_left _ hlater⟩
  obtain ⟨found, hfound, -, hmem⟩ := discovered_explore g [.enter root]
    { acc.1 with discovered := [], finished := [] }
  have hdiscovered : (g.collect acc root).1.discovered = found :=
    hfound.trans (List.append_nil _)
  rw [Graph.collect]
  dsimp only
  split
  next => exact ⟨hroot, h.ordered⟩
  next hne =>
    change ¬(g.collect acc root).1.discovered.isEmpty = true at hne
    change CollectsInOrder left _ ((g.collect acc root).1.discovered :: acc.2)
    rw [hdiscovered] at hne ⊢
    refine ⟨List.forall_mem_cons.mpr ⟨⟨root, ?_, ?_⟩, hroot⟩,
      List.pairwise_cons.mpr ⟨fun c hc => ?_, h.ordered⟩⟩
    · -- the path to any of the vertices starts at the root
      obtain ⟨v, hv⟩ := List.exists_mem_of_ne_nil found fun he => hne (he ▸ rfl)
      obtain ⟨u, hu, hpath⟩ := exists_path_of_explore ((hmem v).mp hv).1 ((hmem v).mp hv).2
      obtain ⟨⟩ := List.mem_singleton.mp hu
      rcases Relation.ReflTransGen.cases_head hpath with rfl | ⟨_, hstep, -⟩
      · exact hv
      · exact (hmem root).mpr ⟨hstep.2.1, isFresh_explore (.inr (List.mem_singleton_self _))⟩
    · exact List.mem_append_right _ (List.mem_singleton_self root)
    · obtain ⟨r, hr, hlater⟩ := h.root c hc
      refine ⟨r, hr, fun v hv => ?_⟩
      rw [hleft]
      exact (List.singleton_sublist.mpr hlater).append
        (List.singleton_sublist.mpr (hearlier v ((hmem v).mp hv).1))

theorem isLeftAfter_components (g : Graph) :
    g.components.Pairwise (IsLeftAfter (g.traverse g.vertices).finished) := by
  have hcollects : CollectsInOrder (g.traverse g.vertices).finished
      (g.traverse g.vertices).finished
      ((g.traverse g.vertices).finished.foldl g.reverse.collect (g.reverse.start, [])).2 :=
    collect_induction (P := fun later acc =>
        CollectsInOrder (g.traverse g.vertices).finished later acc.2)
      (fun _ => mem_finished_traverse)
      (fun _ _ _ _ hleft _ hearlier h => h.collect hleft hearlier)
      ⟨List.forall_mem_nil _, .nil⟩
  rw [components, List.pairwise_map, List.pairwise_reverse]
  refine hcollects.ordered.imp fun {c d} h => ?_
  obtain ⟨r, hr, hd⟩ := h
  exact ⟨r, List.mem_mergeSort.mpr hr, fun v hv => hd v (List.mem_mergeSort.mp hv)⟩

/-- The position of a vertex in the order in which a traversal discovers the vertices. -/
def discovery (g : Graph) (v : Nat) : Nat :=
  (positions g.size (g.traverse g.vertices).discovered.reverse).getD v 0

theorem sorted_components (g : Graph) :
    ∀ c ∈ g.components, c.Pairwise fun v w => g.discovery v ≤ g.discovery w := by
  intro c hc
  obtain ⟨c', -, rfl⟩ := List.mem_map.mp hc
  refine (List.pairwise_mergeSort (fun u v w huv hvw => ?_) (fun v w => ?_) c').imp fun h =>
    of_decide_eq_true h
  · exact decide_eq_true (Nat.le_trans (of_decide_eq_true huv) (of_decide_eq_true hvw))
  · rw [Bool.or_eq_true, decide_eq_true_iff, decide_eq_true_iff]
    exact Nat.le_total _ _

/-! ### Components by low numbers -/

/-- How a search by low numbers relates to the traversal that makes the same steps. -/
structure Follows (g : Graph) (frames : List Frame) (s : Lowlinks g.size) (t : Traversal) : Prop where
  fresh : ∀ v, s.isFresh v = t.isFresh v
  next : s.next = t.discovered.length
  number : ∀ v < g.size, s.isFresh v = false → t.discovered.reverse[s.number v]? = some v
  left : ∀ v ∈ s.stack ++ s.found.flatten, v ∈ frames.map Frame.vertex ∨ v ∈ t.finished
  found : ∀ v ∈ s.found.flatten, v ∈ t.finished
  ordered : s.found.Pairwise (IsLeftAfter t.finished)

namespace Follows

theorem start (g : Graph) : g.Follows [] (.start g.size) g.start where
  fresh v := by
    by_cases hv : v < g.size <;>
      simp [Lowlinks.isFresh, Lowlinks.start, Traversal.isFresh, Graph.start, hv]
  next := rfl
  number v hv hfresh := by simp [Lowlinks.isFresh, Lowlinks.start, hv] at hfresh
  left := List.forall_mem_nil _
  found := List.forall_mem_nil _
  ordered := .nil

theorem visit (h : g.Follows frames s t) (hw : s.isFresh w = true)
    (hframes : frames'.map Frame.vertex = frames.map Frame.vertex) :
    g.Follows (g.frame w :: frames') (s.visit w) (t.discover w) := by
  have hlt := Lowlinks.lt_of_isFresh hw
  refine ⟨fun v => ?_, congrArg Nat.succ h.next, fun v hv hfresh => ?_, fun v hv => ?_, h.found,
    h.ordered⟩
  · rw [Lowlinks.isFresh_visit hlt, Traversal.isFresh_discover, h.fresh]
  · rw [Lowlinks.isFresh_visit hlt] at hfresh
    rw [Lowlinks.number_visit hlt, Traversal.discover, List.reverse_cons]
    by_cases hvw : v = w
    · rw [if_pos hvw, h.next, hvw, List.getElem?_append_right (Nat.le_of_eq List.length_reverse),
        List.length_reverse, Nat.sub_self]
      rfl
    · rw [if_neg hvw] at hfresh ⊢
      have hnumber := h.number v hv hfresh
      rw [List.getElem?_append_left (List.getElem?_eq_some_iff.mp hnumber).1, hnumber]
  · rw [List.map_cons, hframes]
    rcases List.mem_cons.mp hv with rfl | hv
    · exact .inl List.mem_cons_self
    · exact (h.left v hv).imp_left (List.mem_cons_of_mem _)

theorem look (h : g.Follows frames s t)
    (hframes : frames'.map Frame.vertex = frames.map Frame.vertex) :
    g.Follows frames' (s.look v w) t := by
  have hlook : g.Follows frames' s t := { h with left := hframes ▸ h.left }
  rw [Lowlinks.look]
  split
  · exact { hlook with }
  · exact hlook

theorem finish (h : g.Follows (⟨v, []⟩ :: frames) s t) : g.Follows frames s (t.finish v) where
  fresh := h.fresh
  next := h.next
  number := h.number
  left u hu := by
    rcases h.left u hu with hu | hu
    · rcases List.mem_cons.mp hu with rfl | hu
      · exact .inr List.mem_cons_self
      · exact .inl hu
    · exact .inr (List.mem_cons_of_mem v hu)
  found u hu := List.mem_cons_of_mem v (h.found u hu)
  ordered := h.ordered.imp fun hc => hc.mono (List.sublist_cons_self v _)

theorem release (h : g.Follows (⟨v, []⟩ :: frames) s t) (hs : s.stack = above ++ v :: below)
    (hv : v ∉ above) (hopen : ∀ u ∈ above, u ∉ frames.map Frame.vertex) :
    g.Follows frames (s.release v) (t.finish v) := by
  have hmembers : ∀ u ∈ (above ++ [v]).reverse, u ∈ v :: t.finished := by
    intro u hu
    rcases List.mem_append.mp (List.mem_reverse.mp hu) with habove | hu
    · refine List.mem_cons_of_mem v ((h.left u ?_).resolve_left fun hmem => ?_)
      · exact List.mem_append_left _ (hs ▸ List.mem_append_left _ habove)
      · rcases List.mem_cons.mp hmem with he | hmem
        · exact hv (he.subst (motive := (· ∈ above)) habove)
        · exact hopen u habove hmem
    · exact List.mem_singleton.mp hu ▸ List.mem_cons_self
  have hfinish := h.finish
  rw [Lowlinks.release_eq hs hv]
  refine ⟨h.fresh, h.next, h.number, fun u hu => ?_, ?_, ?_⟩
  · rcases List.mem_append.mp hu with hu | hu
    · exact hfinish.left u
        (List.mem_append_left _ (hs ▸ List.mem_append_right _ (List.mem_cons_of_mem v hu)))
    · rcases List.mem_append.mp hu with hu | hu
      · exact .inr (hmembers u hu)
      · exact hfinish.left u (List.mem_append_right _ hu)
  · exact List.forall_mem_append.mpr ⟨hmembers, hfinish.found⟩
  · refine List.pairwise_cons.mpr ⟨fun c hc => ⟨v, by simp, fun u hu => ?_⟩, hfinish.ordered⟩
    exact (List.singleton_sublist.mpr (h.found u (List.mem_flatten.mpr ⟨c, hc, hu⟩))).cons_cons v

theorem leave (h : g.Follows (⟨v, []⟩ :: frames) s t)
    (hsearch : g.IsSearch (⟨v, []⟩ :: frames) roots s) (parent : Option Nat) :
    g.Follows frames (s.leave v parent) (t.finish v) := by
  obtain ⟨above, below, hs, -, -, hbelow⟩ := hsearch.stack.exists_isFrame
  have hdisjoint := (List.nodup_append.mp (hs ▸ (List.nodup_append.mp hsearch.nodup).1)).2.2
  have hopen : ∀ u ∈ above, u ∉ frames.map Frame.vertex := fun u hu hmem => by
    obtain ⟨f, hf, rfl⟩ := List.mem_map.mp hmem
    exact hdisjoint _ hu _ (List.mem_cons_of_mem v (hbelow.vertex_mem f hf)) rfl
  have hclose : ∀ s' : Lowlinks g.size, s'.stack = s.stack →
      g.Follows (⟨v, []⟩ :: frames) s' t → g.Follows frames (s'.close v) (t.finish v) := by
    intro s' hs' h'
    rw [Lowlinks.close]
    split
    · exact h'.release (hs'.trans hs) (fun hv => hdisjoint v hv v List.mem_cons_self rfl) hopen
    · exact h'.finish
  cases parent with
  | none => exact hclose s rfl h
  | some u => exact hclose (s.lower u (s.low v)) rfl { h with }

end Follows

theorem explore_enter (hw : t.isFresh w = true) :
    g.explore (.enter w :: steps frames roots) t =
      g.explore (steps (g.frame w :: frames) roots) (t.discover w) := by
  rw [explore, dif_pos hw]
  simp [steps, frame]

theorem explore_enter_of_not_isFresh {pending : List Step} (hw : t.isFresh w = false) :
    g.explore (.enter w :: pending) t = g.explore pending t := by
  rw [explore, dif_neg (Bool.eq_false_iff.mp hw)]

/-- A search by low numbers and a traversal make the same steps. -/
theorem follows_search (h : g.IsSearch frames roots s) (hfollows : g.Follows frames s t) :
    g.Follows [] (g.search frames roots s) (g.explore (steps frames roots) t) := by
  induction frames, roots, s using search.induct g generalizing t with
  | case1 s =>
      change g.Follows [] (g.search [] [] s) (g.explore [] t)
      rwa [search, explore]
  | case2 w roots s hw _ ih =>
      change g.Follows [] _ (g.explore (.enter w :: steps [] roots) t)
      rw [search, dif_pos hw, explore_enter (hfollows.fresh w ▸ hw)]
      exact ih (h.visit_root hw) (hfollows.visit hw rfl)
  | case3 w roots s hw ih =>
      have hw := Bool.eq_false_iff.mpr hw
      change g.Follows [] _ (g.explore (.enter w :: steps [] roots) t)
      rw [search, dif_neg (Bool.eq_false_iff.mp hw),
        explore_enter_of_not_isFresh (hfollows.fresh w ▸ hw)]
      exact ih (h.skip hw) hfollows
  | case4 v w pending frames roots s hw _ ih =>
      change g.Follows [] _ (g.explore (.enter w :: steps (⟨v, pending⟩ :: frames) roots) t)
      rw [search, dif_pos hw, explore_enter (hfollows.fresh w ▸ hw)]
      exact ih (h.visit_successor hw) (hfollows.visit hw rfl)
  | case5 v w pending frames roots s hw _ ih =>
      have hw := Bool.eq_false_iff.mpr hw
      change g.Follows [] _ (g.explore (.enter w :: steps (⟨v, pending⟩ :: frames) roots) t)
      rw [search, dif_neg (Bool.eq_false_iff.mp hw),
        explore_enter_of_not_isFresh (hfollows.fresh w ▸ hw)]
      exact ih (h.look hw) (hfollows.look rfl)
  | case6 v frames roots s _ ih =>
      change g.Follows [] _ (g.explore (.leave v :: steps frames roots) t)
      rw [search, explore]
      exact ih h.leave (hfollows.leave h _)

theorem follows_traverse (g : Graph) :
    g.Follows [] (g.search [] g.vertices (.start g.size)) (g.traverse g.vertices) :=
  follows_search (IsSearch.start g) (Follows.start g)

theorem isLeftAfter_lowlinkComponents (g : Graph) :
    g.lowlinkComponents.Pairwise (IsLeftAfter (g.traverse g.vertices).finished) :=
  g.follows_traverse.ordered

theorem number_search (hv : v < g.size) :
    (g.search [] g.vertices (.start g.size)).number v = g.discovery v ∧
      (g.traverse g.vertices).discovered.reverse[g.discovery v]? = some v := by
  have hfresh : (g.search [] g.vertices (.start g.size)).isFresh v = false :=
    Bool.eq_false_iff.mpr fun hfresh =>
      List.not_mem_nil ((isSearch_search (IsSearch.start g)).roots v hfresh)
  have hnumber := g.follows_traverse.number v hv hfresh
  obtain ⟨found, hfound, hnodup, -⟩ := discovered_explore g (g.vertices.map .enter) g.start
  have hdiscovered : (g.traverse g.vertices).discovered = found := hfound.trans (List.append_nil _)
  have hposition := getElem?_positions
    ((List.reverse_perm _).nodup_iff.mpr (hdiscovered ▸ hnodup)) hnumber hv
  have heq : g.discovery v = (g.search [] g.vertices (.start g.size)).number v := by
    rw [discovery, Array.getD_eq_getD_getElem?, hposition]
    rfl
  exact ⟨heq.symm, heq ▸ hnumber⟩

theorem discovery_injective (hv : v < g.size) (hw : w < g.size)
    (h : g.discovery v = g.discovery w) : v = w :=
  Option.some.inj ((number_search hv).2.symm.trans (h ▸ (number_search hw).2))

theorem sorted_lowlinkComponents (g : Graph) :
    ∀ c ∈ g.lowlinkComponents, c.Pairwise fun v w => g.discovery v ≤ g.discovery w := by
  intro c hc
  have hlt : ∀ v ∈ c, v < g.size := fun v hv =>
    (g.isOrderedPartition_lowlinkComponents.mem v).mp (List.mem_flatten.mpr ⟨c, hc, hv⟩)
  refine ((isSearch_search (IsSearch.start g)).found.increasing c hc).imp_of_mem
    fun {v w} hv hw hvw => ?_
  rw [(number_search (hlt v hv)).1, (number_search (hlt w hw)).1] at hvw
  exact Nat.le_of_lt hvw

/-! ### The components of a graph -/

/-- Collecting along the edges turned round and closing by low numbers give the same components. -/
theorem lowlinkComponents_eq (g : Graph) : g.lowlinkComponents = g.components := by
  have hl := g.isOrderedPartition_lowlinkComponents
  have hc := g.isOrderedPartition_components
  have hinjective : ∀ v < g.size, ∀ w < g.size, g.discovery v = g.discovery w → v = w :=
    fun _ hv _ hw => discovery_injective hv hw
  refine eq_of_isLeftAfter (isNested_start g g.vertices).explore.nodup
    g.isLeftAfter_lowlinkComponents g.isLeftAfter_components fun c => ⟨fun h => ?_, fun h => ?_⟩
  · exact hl.subset_of_sorted hc g.areConnected_lowlinkComponents g.areConnected_components
      hinjective g.sorted_lowlinkComponents g.sorted_components h
  · exact hc.subset_of_sorted hl g.areConnected_components g.areConnected_lowlinkComponents
      hinjective g.sorted_components g.sorted_lowlinkComponents h

/-- A list of the strongly connected components, in which no edge leads to an earlier one. -/
structure IsComponents (g : Graph) (cs : List (List Nat)) : Prop where
  nodup : cs.flatten.Nodup
  mem : ∀ v, v ∈ cs.flatten ↔ v < g.size
  nonempty : ∀ c ∈ cs, c ≠ []
  connected : ∀ v < g.size, ∀ w < g.size,
    (∃ c ∈ cs, v ∈ c ∧ w ∈ c) ↔ g.Reaches v w ∧ g.Reaches w v
  forward : ∀ (i j : Nat) (c d : List Nat), cs[i]? = some c → cs[j]? = some d → i ≠ j →
    ∀ v ∈ c, ∀ w ∈ d, g.Edge v w → i < j

theorem IsOrderedPartition.isComponents (h : g.IsOrderedPartition cs) (hc : g.AreConnected cs) :
    g.IsComponents cs := by
  refine ⟨h.nodup, h.mem, h.nonempty, fun v hv w hw => h.exists_iff hc hv hw, ?_⟩
  intro i j c d hi hj hne v hv w hw hedge
  obtain ⟨hilt, rfl⟩ := List.getElem?_eq_some_iff.mp hi
  obtain ⟨hjlt, rfl⟩ := List.getElem?_eq_some_iff.mp hj
  refine Nat.lt_of_le_of_ne (Nat.le_of_not_lt fun hlt => ?_) hne
  exact List.pairwise_iff_getElem.mp h.forward j i hjlt hilt hlt w hw v hv hedge

/-- The components that are found by low numbers, in one pass, are the strongly connected components,
in an order in which no edge leads to an earlier one, and `components` gives the same list. -/
theorem isComponents_lowlinkComponents (g : Graph) :
    g.IsComponents g.lowlinkComponents ∧ g.components = g.lowlinkComponents :=
  ⟨g.isOrderedPartition_lowlinkComponents.isComponents g.areConnected_lowlinkComponents,
    g.lowlinkComponents_eq.symm⟩

/-- An edge leads from one cycle to another one. -/
example : (ofLists [[1], [2], [0, 3], [4], [3]]).lowlinkComponents = [[0, 1, 2], [3, 4]] := by cbv

end Graph
end FinitePlanning
