import FinitePlanning.Proofs.Graph.FinishOrder

/-!
Two vertices are in the same component if and only if paths lead from each of them to the other one.
-/

namespace FinitePlanning
namespace Graph

variable {g : Graph} {pending : List Step} {t : Traversal} {roots : List Nat} {u v w : Nat}

/-! ### What a traversal reaches -/

/-- All that a traversal discovers can be reached from a vertex that it was to enter, through
vertices that were not discovered before. -/
theorem exists_path_of_explore (h : t.isFresh v = true)
    (hv : (g.explore pending t).isFresh v = false) : ∃ u, .enter u ∈ pending ∧
      Relation.ReflTransGen (fun x y => g.Edge x y ∧ t.isFresh x = true ∧ t.isFresh y = true) u v := by
  induction pending, t using explore.induct g with
  | case1 t =>
      rw [explore] at hv
      cases h.symm.trans hv
  | case2 u rest t ih =>
      rw [explore] at hv
      obtain ⟨x, hx, hpath⟩ := ih h hv
      exact ⟨x, List.mem_cons_of_mem _ hx, hpath⟩
  | case3 u rest t hu _ ih =>
      rw [explore, dif_pos hu] at hv
      by_cases huv : v = u
      · exact ⟨u, List.mem_cons_self, huv ▸ .refl⟩
      · have hfresh : (t.discover u).isFresh v = true := by
          rw [Traversal.isFresh_discover, if_neg huv]
          exact h
        have holder : ∀ {x}, (t.discover u).isFresh x = true → t.isFresh x = true := by
          intro x hx
          rw [Traversal.isFresh_discover] at hx
          split at hx
          next => cases hx
          next => exact hx
        obtain ⟨x, hx, hpath⟩ := ih hfresh hv
        have hpath : Relation.ReflTransGen
            (fun x y => g.Edge x y ∧ t.isFresh x = true ∧ t.isFresh y = true) x v :=
          hpath.lift id fun _ _ hxy => ⟨hxy.1, holder hxy.2.1, holder hxy.2.2⟩
        rcases List.mem_append.mp hx with hx | hx
        · obtain ⟨y, hy, he⟩ := List.mem_map.mp hx
          cases he
          -- the first vertex of the path was not discovered before either
          have hyfresh : t.isFresh x = true := by
            rcases Relation.ReflTransGen.cases_head hpath with rfl | ⟨_, hstep, -⟩
            · exact h
            · exact hstep.2.1
          exact ⟨u, List.mem_cons_self, .head ⟨hy, hu, hyfresh⟩ hpath⟩
        · rcases List.mem_cons.mp hx with he | hx
          · cases he
          · exact ⟨x, List.mem_cons_of_mem _ hx, hpath⟩
  | case4 u rest t hu ih =>
      rw [explore, dif_neg hu] at hv
      obtain ⟨x, hx, hpath⟩ := ih h hv
      exact ⟨x, List.mem_cons_of_mem _ hx, hpath⟩

/-- A traversal discovers what can be reached from its roots. -/
theorem isFresh_traverse_iff (hv : v < g.size) :
    (g.traverse roots).isFresh v = false ↔ ∃ u ∈ roots, g.Reaches u v := by
  constructor
  · intro hfresh
    obtain ⟨u, hu, hpath⟩ := exists_path_of_explore (isFresh_start hv) hfresh
    obtain ⟨r, hr, he⟩ := List.mem_map.mp hu
    cases he
    exact ⟨u, hr, hpath.lift id fun _ _ hxy => hxy.1⟩
  · rintro ⟨u, hu, hpath⟩
    clear hv
    induction hpath with
    | refl => exact isFresh_traverse_root hu
    | tail _ hxy ih => exact isFresh_traverse_successor (Edge.lt hxy) ih hxy

theorem mem_discovered_traverse (hv : v < g.size) :
    v ∈ (g.traverse roots).discovered ↔ ∃ u ∈ roots, g.Reaches u v := by
  obtain ⟨found, hfound, -, hmem⟩ := discovered_explore g (roots.map .enter) g.start
  have hdiscovered : (g.traverse roots).discovered = found :=
    hfound.trans (List.append_nil found)
  rw [hdiscovered, hmem, ← isFresh_traverse_iff hv]
  exact and_iff_right (isFresh_start hv)

/-! ### Edges turned round -/

theorem mem_getD_modify {arcs : Array (List Nat)} {target i x : Nat}
    (h : x ∈ (arcs.modify target (u :: ·)).getD i []) :
    x ∈ arcs.getD i [] ∨ x = u ∧ i = target := by
  rw [Array.getD_eq_getD_getElem?, Array.getElem?_modify] at h
  rw [Array.getD_eq_getD_getElem?]
  split at h
  next he =>
    cases hget : arcs[i]? with
    | none =>
        rw [hget] at h
        exact .inl h
    | some l =>
        rw [hget] at h
        exact (List.mem_cons.mp h).elim (fun hx => .inr ⟨hx, he.symm⟩) .inl
  next => exact .inl h

/-- Edges of the graph with its edges turned round are edges of the graph. -/
theorem edge_of_reverse (h : g.reverse.Edge w v) : g.Edge v w := by
  have hinner : ∀ (u : Nat) (targets : List Nat) (arcs : Array (List Nat)) (i x : Nat),
      x ∈ (targets.foldl (fun arcs w => arcs.modify w (u :: ·)) arcs).getD i [] →
        x ∈ arcs.getD i [] ∨ x = u ∧ i ∈ targets := by
    intro u targets
    induction targets with
    | nil => exact fun _ _ _ => .inl
    | cons target targets ih =>
        intro arcs i x hx
        rcases ih _ i x hx with hx | ⟨rfl, hi⟩
        · exact (mem_getD_modify hx).imp_right fun ⟨hxu, hi⟩ => ⟨hxu, hi ▸ List.mem_cons_self⟩
        · exact .inr ⟨rfl, List.mem_cons_of_mem _ hi⟩
  have houter : ∀ (vertices : List Nat) (arcs : Array (List Nat)) (i x : Nat),
      x ∈ (vertices.foldl (fun arcs u => (g.successorsOf u).foldl
        (fun arcs w => arcs.modify w (u :: ·)) arcs) arcs).getD i [] →
        x ∈ arcs.getD i [] ∨ g.Edge x i := by
    intro vertices
    induction vertices with
    | nil => exact fun _ _ _ => .inl
    | cons u vertices ih =>
        intro arcs i x hx
        rcases ih _ i x hx with hx | hx
        · exact (hinner u _ arcs i x hx).imp_right fun ⟨hxu, hi⟩ => hxu ▸ hi
        · exact .inr hx
  refine (houter g.vertices (Array.replicate g.size []) w v h).resolve_left fun hmem => ?_
  rw [Array.getD_eq_getD_getElem?, Array.getElem?_replicate] at hmem
  split at hmem <;> cases hmem

/-! ### Components -/

/-- The vertices of each component reach each other. -/
def AreConnected (g : Graph) (cs : List (List Nat)) : Prop :=
  ∀ c ∈ cs, ∃ root, ∀ v ∈ c, g.Reaches v root ∧ g.Reaches root v

theorem AreConnected.reaches {cs : List (List Nat)} (h : g.AreConnected cs) {c : List Nat}
    (hc : c ∈ cs) (hv : v ∈ c) (hw : w ∈ c) : g.Reaches v w := by
  obtain ⟨root, hroot⟩ := h c hc
  exact (hroot v hv).1.trans (hroot w hw).2

/-- What is not collected yet was not left later than the root. -/
theorem mem_of_isFresh {acc : Traversal × List (List Nat)} {left later earlier : List Nat}
    (hleft : left = later ++ earlier) (hall : ∀ v < g.size, v ∈ left)
    (hcollects : g.reverse.Collects acc) (hlater : ∀ v ∈ later, acc.1.isFresh v = false)
    (hv : acc.1.isFresh v = true) : v ∈ earlier := by
  have hlt : v < g.size := size_reverse g ▸ hcollects.fresh_lt v hv
  have hmem := hleft ▸ hall v hlt
  refine (List.mem_append.mp hmem).resolve_left fun hmem => ?_
  rw [hlater v hmem] at hv
  cases hv

/-- What each collected component keeps holds when all vertices that were left were passed. -/
theorem collect_induction {P : List Nat → Traversal × List (List Nat) → Prop} {left : List Nat}
    (hall : ∀ v < g.size, v ∈ left)
    (step : ∀ later root earlier acc, left = later ++ root :: earlier → g.reverse.Collects acc →
      (∀ v, acc.1.isFresh v = true → v ∈ root :: earlier) → P later acc →
      P (later ++ [root]) (g.reverse.collect acc root))
    (start : P [] (g.reverse.start, [])) :
    P left (left.foldl g.reverse.collect (g.reverse.start, [])) := by
  have hrun : ∀ roots later acc, left = later ++ roots → g.reverse.Collects acc →
      (∀ v ∈ later, acc.1.isFresh v = false) → P later acc →
      P left (roots.foldl g.reverse.collect acc) := by
    intro roots
    induction roots with
    | nil =>
        intro later acc hleft _ _ h
        rwa [hleft, List.append_nil]
    | cons root roots ih =>
        intro later acc hleft hcollects hlater h
        obtain ⟨hnext, hroot, hkeep⟩ := hcollects.collect root
        have hstep := step later root roots acc hleft hcollects
          (fun _ => mem_of_isFresh hleft hall hcollects hlater) h
        exact ih (later ++ [root]) _ (hleft.trans (List.append_cons ..)) hnext
          (List.forall_mem_append.mpr
            ⟨fun v hv => hkeep v (hlater v hv), List.forall_mem_singleton.mpr hroot⟩) hstep
  exact hrun left [] _ rfl (collects_start g.reverse) (List.forall_mem_nil _) start

theorem areConnected_collect {acc : Traversal × List (List Nat)} {left later earlier : List Nat}
    {root : Nat} (horder : g.IsFinishOrder left) (hn : left.Nodup)
    (hleft : left = later ++ root :: earlier)
    (hearlier : ∀ v, acc.1.isFresh v = true → v ∈ root :: earlier)
    (h : g.AreConnected acc.2) : g.AreConnected (g.reverse.collect acc root).2 := by
  obtain ⟨found, hfound, -, hmem⟩ := discovered_explore g.reverse [.enter root]
    { acc.1 with discovered := [], finished := [] }
  have hdiscovered : (g.reverse.collect acc root).1.discovered = found :=
    hfound.trans (List.append_nil _)
  have hnew : ∀ v ∈ found, g.Reaches v root ∧ g.Reaches root v := by
    intro v hv
    obtain ⟨hfresh, hend⟩ := (hmem v).mp hv
    obtain ⟨u, hu, hpath⟩ := exists_path_of_explore hfresh hend
    obtain ⟨⟩ := List.mem_singleton.mp hu
    have hback : Relation.ReflTransGen (fun x y => g.Edge x y ∧ x ∈ root :: earlier ∧
        y ∈ root :: earlier) v root := by
      refine (Relation.reflTransGen_swap.mpr hpath).lift id fun x y hxy => ?_
      exact ⟨edge_of_reverse hxy.1, hearlier x hxy.2.2, hearlier y hxy.2.1⟩
    exact ⟨hback.lift id fun _ _ hxy => hxy.1,
      horder.reaches hn hleft hback (hearlier v hfresh)⟩
  rw [collect]
  dsimp only
  split
  next => exact h
  next =>
    refine List.forall_mem_cons.mpr ⟨⟨root, ?_⟩, h⟩
    change ∀ v ∈ (g.reverse.collect acc root).1.discovered, _
    rwa [hdiscovered]

theorem areConnected_components (g : Graph) : g.AreConnected g.components := by
  have hnested := (isNested_start g g.vertices).explore
  have hconnected : g.AreConnected
      ((g.traverse g.vertices).finished.foldl g.reverse.collect (g.reverse.start, [])).2 :=
    collect_induction (P := fun _ acc => g.AreConnected acc.2) (fun _ => mem_finished_traverse)
      (fun _ _ _ _ hleft _ hearlier h =>
        areConnected_collect hnested.finished hnested.nodup hleft hearlier h)
      (List.forall_mem_nil _)
  intro c hc
  obtain ⟨c', hc', rfl⟩ := List.mem_map.mp hc
  obtain ⟨root, hroot⟩ := hconnected c' (List.mem_reverse.mp hc')
  exact ⟨root, fun v hv => hroot v (List.mem_mergeSort.mp hv)⟩

/-- An edge leads to the same component or to a later one. -/
theorem IsOrderedPartition.mem_of_edge {cs front rest : List (List Nat)} {c : List Nat}
    (h : g.IsOrderedPartition cs) (hcs : cs = front ++ c :: rest) (hv : v ∈ c) (hvw : g.Edge v w)
    (hw : w < g.size) : w ∈ c ∨ w ∈ rest.flatten := by
  have hmem := (h.mem w).mpr hw
  rw [hcs, List.flatten_append, List.flatten_cons, List.mem_append, List.mem_append] at hmem
  refine hmem.resolve_left fun hfront => ?_
  obtain ⟨e, he, hwe⟩ := List.mem_flatten.mp hfront
  have hforward := h.forward
  rw [hcs] at hforward
  exact (List.pairwise_append.mp hforward).2.2 e he c List.mem_cons_self w hwe v hv hvw

/-- A path leads to the same component or to later ones. -/
theorem IsOrderedPartition.mem_of_reaches {cs front rest : List (List Nat)} {c : List Nat}
    (h : g.IsOrderedPartition cs) (hcs : cs = front ++ c :: rest) (hv : v ∈ c)
    (hvw : g.Reaches v w) (hw : w < g.size) : w ∈ c ∨ w ∈ rest.flatten := by
  induction hvw with
  | refl => exact .inl hv
  | @tail x y _ hxy ih =>
      rcases ih (Edge.lt hxy) with hx | hx
      · exact h.mem_of_edge hcs hx hxy hw
      · obtain ⟨d, hd, hxd⟩ := List.mem_flatten.mp hx
        obtain ⟨middle, tail, rfl⟩ := List.append_of_mem hd
        have hd' : cs = (front ++ c :: middle) ++ d :: tail := by
          rw [hcs, List.append_assoc]
          rfl
        have hy := h.mem_of_edge hd' hxd hxy hw
        refine .inr (List.mem_flatten.mpr ?_)
        rcases hy with hy | hy
        · exact ⟨d, hd, hy⟩
        · obtain ⟨e, he, hye⟩ := List.mem_flatten.mp hy
          exact ⟨e, List.mem_append_right _ (List.mem_cons_of_mem d he), hye⟩

/-- Vertices that reach each other are in the same component. -/
theorem IsOrderedPartition.mem_of_mutual {cs : List (List Nat)} {c : List Nat}
    (h : g.IsOrderedPartition cs) (hc : c ∈ cs) (hv : v ∈ c) (hw : w < g.size)
    (hvw : g.Reaches v w) (hwv : g.Reaches w v) : w ∈ c := by
  obtain ⟨front, rest, rfl⟩ := List.append_of_mem hc
  refine (h.mem_of_reaches rfl hv hvw hw).resolve_right fun hrest => ?_
  obtain ⟨d, hd, hwd⟩ := List.mem_flatten.mp hrest
  obtain ⟨middle, tail, rfl⟩ := List.append_of_mem hd
  have hv' : v ∈ (front ++ c :: (middle ++ d :: tail)).flatten :=
    List.mem_flatten.mpr ⟨c, hc, hv⟩
  have hd' : front ++ c :: (middle ++ d :: tail) = (front ++ c :: middle) ++ d :: tail := by
    rw [List.append_assoc]
    rfl
  have hback := h.mem_of_reaches hd' hwd hwv ((h.mem v).mp hv')
  -- the two components have no vertex in common
  have hn := h.nodup
  rw [List.flatten_append, List.flatten_cons, List.nodup_append, List.nodup_append] at hn
  refine hn.2.1.2.2 v hv v ?_ rfl
  rw [List.flatten_append, List.flatten_cons]
  exact List.mem_append_right _ (List.mem_append.mpr hback)

/-- An edge inside a component leads to each member if there are others. -/
theorem exists_edge_of_mem_component {c : List Nat} (hc : c ∈ g.components) (hv : v ∈ c)
    (hw : w ∈ c) (hne : v ≠ w) : ∃ u ∈ c, g.Edge u w := by
  have hconnected := g.areConnected_components
  rcases Relation.ReflTransGen.cases_tail (hconnected.reaches hc hv hw) with heq | ⟨u, hvu, huw⟩
  · exact absurd heq.symm hne
  · have huv : g.Reaches u v := .head huw (hconnected.reaches hc hw hv)
    exact ⟨u, g.isOrderedPartition_components.mem_of_mutual hc hv (Edge.lt huw) hvu huv, huw⟩

/-- Two vertices are in the same component if and only if they reach each other. -/
theorem IsOrderedPartition.exists_iff {cs : List (List Nat)} (h : g.IsOrderedPartition cs)
    (hconnected : g.AreConnected cs) (hv : v < g.size) (hw : w < g.size) :
    (∃ c ∈ cs, v ∈ c ∧ w ∈ c) ↔ g.Reaches v w ∧ g.Reaches w v := by
  constructor
  · intro ⟨c, hc, hvc, hwc⟩
    exact ⟨hconnected.reaches hc hvc hwc, hconnected.reaches hc hwc hvc⟩
  · intro ⟨hvw, hwv⟩
    obtain ⟨c, hc, hvc⟩ := List.mem_flatten.mp ((h.mem v).mpr hv)
    exact ⟨c, hc, hvc, h.mem_of_mutual hc hvc hw hvw hwv⟩

theorem exists_component_iff (hv : v < g.size) (hw : w < g.size) :
    (∃ c ∈ g.components, v ∈ c ∧ w ∈ c) ↔ g.Reaches v w ∧ g.Reaches w v :=
  g.isOrderedPartition_components.exists_iff g.areConnected_components hv hw

theorem componentOf_components_eq_iff (hv : v < g.size) (hw : w < g.size) :
    (componentOf g.size g.components)[v]? = (componentOf g.size g.components)[w]? ↔
      g.Reaches v w ∧ g.Reaches w v := by
  have hpartition := g.isOrderedPartition_components
  have hindex : ∀ {u i : Nat} {c}, g.components[i]? = some c → u ∈ c → u < g.size →
      (componentOf g.size g.components)[u]? = some i :=
    getElem?_componentOf hpartition.nodup
  have hexists : ∀ {u : Nat}, u < g.size → ∃ (i : Nat) (c : List Nat),
      g.components[i]? = some c ∧ u ∈ c := by
    intro u hu
    obtain ⟨c, hc, huc⟩ := List.mem_flatten.mp ((hpartition.mem u).mpr hu)
    obtain ⟨i, hi⟩ := List.getElem?_of_mem hc
    exact ⟨i, c, hi, huc⟩
  rw [← exists_component_iff hv hw]
  constructor
  · intro heq
    obtain ⟨i, c, hi, hvc⟩ := hexists hv
    obtain ⟨j, d, hj, hwd⟩ := hexists hw
    rw [hindex hi hvc hv, hindex hj hwd hw, Option.some.injEq] at heq
    obtain rfl := Option.some.inj (hi.symm.trans (heq ▸ hj))
    exact ⟨c, List.mem_of_getElem? hi, hvc, hwd⟩
  · intro ⟨c, hc, hvc, hwc⟩
    obtain ⟨i, hi⟩ := List.getElem?_of_mem hc
    rw [hindex hi hvc hv, hindex hi hwc hw]

end Graph
end FinitePlanning
