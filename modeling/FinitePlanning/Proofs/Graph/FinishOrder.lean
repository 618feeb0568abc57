import Mathlib.Logic.Relation
import FinitePlanning.Proofs.Graph.Components

/-!
The order in which a traversal leaves the vertices. While a vertex is open, only vertices that it
reaches are left, and what was left before leads to open vertices at most.
-/

namespace FinitePlanning
namespace Graph

variable {g : Graph} {pending rest above : List Step} {t : Traversal} {u v w : Nat}

def Edge (g : Graph) (v w : Nat) : Prop := w ∈ g.successorsOf v

/-- A path leads from a vertex to another one. -/
def Reaches (g : Graph) : Nat → Nat → Prop := Relation.ReflTransGen g.Edge

theorem Edge.lt (h : g.Edge v w) : v < g.size := by
  by_contra hv
  have hnone : g.successorsOf v = [] := by
    rw [successorsOf, Array.getD_eq_getD_getElem?, Array.getElem?_eq_none (Nat.not_lt.mp hv)]
    rfl
  rw [Edge, hnone] at h
  cases h

/-- The vertices that a traversal has entered and not left, innermost first. -/
def openVertices (pending : List Step) : List Nat :=
  pending.filterMap fun
    | .enter _ => none
    | .leave v => some v

@[simp] theorem openVertices_nil : openVertices [] = [] := rfl

@[simp] theorem openVertices_enter : openVertices (.enter v :: rest) = openVertices rest := rfl

@[simp] theorem openVertices_leave : openVertices (.leave v :: rest) = v :: openVertices rest := rfl

@[simp] theorem openVertices_enters {vs : List Nat} :
    openVertices (vs.map .enter ++ rest) = openVertices rest := by
  induction vs with
  | nil => rfl
  | cons v vs ih => exact ih

/-- When a vertex was left, a part of the vertices left until then had been left since it was
entered. It reaches all of these, and no edge leads from the others to a vertex left later. -/
def IsSplitAt (g : Graph) (v : Nat) (left : List Nat) (outside : Nat → Prop) : Prop :=
  ∃ since before, left = since ++ before ∧ (∀ x ∈ since, g.Reaches v x) ∧
    ∀ x ∈ before, ∀ w, g.Edge x w → w ∈ before ∨ outside w

/-- A list of the vertices in the order in which they were left, last first. -/
def IsFinishOrder (g : Graph) (left : List Nat) : Prop :=
  ∀ later v earlier, left = later ++ v :: earlier → g.IsSplitAt v earlier (· ∉ v :: earlier)

/-- What holds of the vertices that were left, and of those that are open. -/
structure IsNested (g : Graph) (pending : List Step) (t : Traversal) : Prop where
  fresh_lt : ∀ v, t.isFresh v = true → v < g.size
  nodup : (openVertices pending ++ t.finished).Nodup
  visited : ∀ v, v ∈ openVertices pending ++ t.finished ↔ v < g.size ∧ t.isFresh v = false
  closed : ∀ v ∈ t.finished, ∀ w, g.Edge v w → t.isFresh w = false
  reaches : ∀ above v below, pending = above ++ .leave v :: below →
    ∀ w, .enter w ∈ above ∨ .leave w ∈ above → g.Reaches v w
  entered : ∀ above v below, pending = above ++ .leave v :: below →
    ∀ w, g.Edge v w → t.isFresh w = false ∨ .enter w ∈ above
  split : ∀ above v below, pending = above ++ .leave v :: below →
    g.IsSplitAt v t.finished fun w => w ∈ openVertices below ∨ g.size ≤ w
  finished : g.IsFinishOrder t.finished

namespace IsNested

theorem enter_cons (h : g.IsNested (.enter v :: rest) t) (hv : t.isFresh v = false) :
    g.IsNested rest t where
  fresh_lt := h.fresh_lt
  nodup := h.nodup
  visited := h.visited
  closed := h.closed
  reaches above u below he w hw := h.reaches (.enter v :: above) u below (he ▸ rfl) w
    (hw.imp (List.mem_cons_of_mem _) (List.mem_cons_of_mem _))
  entered above u below he w hw := by
    rcases h.entered (.enter v :: above) u below (he ▸ rfl) w hw with hfresh | hmem
    · exact .inl hfresh
    · rcases List.mem_cons.mp hmem with hvw | hmem
      · cases hvw
        exact .inl hv
      · exact .inr hmem
  split above u below he := h.split (.enter v :: above) u below (he ▸ rfl)
  finished := h.finished

/-- Leaving a vertex. -/
theorem leave_cons (h : g.IsNested (.leave v :: rest) t) : g.IsNested rest (t.finish v) where
  fresh_lt := h.fresh_lt
  nodup := List.perm_middle.nodup_iff.mpr h.nodup
  visited u := List.perm_middle.mem_iff.trans (h.visited u)
  closed := List.forall_mem_cons.mpr
    ⟨fun w hw => (h.entered [] v rest rfl w hw).resolve_right List.not_mem_nil, h.closed⟩
  reaches above u below he w hw := h.reaches (.leave v :: above) u below (he ▸ rfl) w
    (hw.imp (List.mem_cons_of_mem _) (List.mem_cons_of_mem _))
  entered above u below he w hw :=
    (h.entered (.leave v :: above) u below (he ▸ rfl) w hw).imp_right fun hmem =>
      (List.mem_cons.mp hmem).resolve_left Step.noConfusion
  split above u below he := by
    obtain ⟨since, before, hfinished, hsince, hbefore⟩ :=
      h.split (.leave v :: above) u below (he ▸ rfl)
    have huv : g.Reaches u v :=
      h.reaches (.leave v :: above) u below (he ▸ rfl) v (.inr List.mem_cons_self)
    exact ⟨v :: since, before, congrArg (v :: ·) hfinished,
      List.forall_mem_cons.mpr ⟨huv, hsince⟩, hbefore⟩
  finished := by
    intro later u earlier he
    cases later with
    | cons x later => exact h.finished later u earlier (List.cons.inj he).2
    | nil =>
        obtain ⟨rfl, rfl⟩ := List.cons.inj he
        obtain ⟨since, before, hfinished, hsince, hbefore⟩ := h.split [] v rest rfl
        refine ⟨since, before, hfinished, hsince, fun x hx w hw =>
          (hbefore x hx w hw).imp_right fun hout hmem => ?_⟩
        -- what is still open, or no vertex at all, was not left
        rcases hout with hopen | hlarge
        · have hdisjoint := (List.nodup_append.mp
            (List.perm_middle.nodup_iff.mpr h.nodup : (openVertices rest ++ v :: t.finished).Nodup)).2.2
          exact hdisjoint w hopen w hmem rfl
        · exact Nat.not_lt.mpr hlarge ((h.visited w).mp
            (List.perm_middle.mem_iff.mp (List.mem_append_right (openVertices rest) hmem))).1

/-- Where the open vertices are once the edges from a vertex are to be followed. -/
theorem append_leave_cases {vs : List Nat} {below : List Step}
    (h : vs.map .enter ++ .leave v :: rest = above ++ .leave u :: below) :
    (above = vs.map .enter ∧ u = v ∧ below = rest) ∨
      ∃ inner, above = vs.map .enter ++ .leave v :: inner ∧ rest = inner ++ .leave u :: below := by
  induction vs generalizing above with
  | nil =>
      cases above with
      | nil =>
          cases h
          exact .inl ⟨rfl, rfl, rfl⟩
      | cons step above =>
          cases h
          exact .inr ⟨above, rfl, rfl⟩
  | cons w vs ih =>
      cases above with
      | nil => cases h
      | cons step above =>
          obtain ⟨rfl, hrest⟩ := List.cons.inj h
          rcases ih hrest with ⟨rfl, rfl, rfl⟩ | ⟨inner, rfl, rfl⟩
          · exact .inl ⟨rfl, rfl, rfl⟩
          · exact .inr ⟨inner, rfl, rfl⟩

/-- Entering a vertex that was not discovered. -/
theorem discover (h : g.IsNested (.enter v :: rest) t) (hv : t.isFresh v = true) :
    g.IsNested ((g.successorsOf v).map .enter ++ .leave v :: rest) (t.discover v) := by
  have hlt := h.fresh_lt v hv
  have hnew : v ∉ openVertices rest ++ t.finished := fun hmem => by
    rw [((h.visited v).mp hmem).2] at hv
    cases hv
  have hkeep : ∀ {w}, t.isFresh w = false → (t.discover v).isFresh w = false :=
    Traversal.not_isFresh_discover
  have hreaches : ∀ {inner u below}, rest = inner ++ .leave u :: below → g.Reaches u v := by
    rintro inner u below rfl
    exact h.reaches (.enter v :: inner) u below rfl v (.inl List.mem_cons_self)
  refine ⟨fun w hw => ?_, ?_, fun w => ?_, fun u hu w hw => hkeep (h.closed u hu w hw),
    fun above u below he w hw => ?_, fun above u below he w hw => ?_, fun above u below he => ?_,
    h.finished⟩
  · rw [Traversal.isFresh_discover] at hw
    split at hw
    next => cases hw
    next => exact h.fresh_lt w hw
  · rw [openVertices_enters, openVertices_leave]
    exact List.nodup_cons.mpr ⟨hnew, h.nodup⟩
  · have hvisited := h.visited w
    rw [openVertices_enter] at hvisited
    rw [openVertices_enters, openVertices_leave, Traversal.isFresh_discover]
    by_cases hw : w = v
    · subst hw
      exact iff_of_true List.mem_cons_self ⟨hlt, if_pos rfl⟩
    · rw [if_neg hw, ← hvisited]
      exact List.mem_cons.trans (or_iff_right hw)
  · rcases append_leave_cases he with ⟨rfl, rfl, rfl⟩ | ⟨inner, rfl, hrest⟩
    · rcases hw with hw | hw
      · obtain ⟨x, hx, he⟩ := List.mem_map.mp hw
        cases he
        exact .single hx
      · obtain ⟨x, -, he⟩ := List.mem_map.mp hw
        cases he
    · have huv := hreaches hrest
      have hinner : .enter w ∈ inner ∨ .leave w ∈ inner → g.Reaches u w := fun hmem =>
        h.reaches (.enter v :: inner) u below (hrest ▸ rfl) w
          (hmem.imp (List.mem_cons_of_mem _) (List.mem_cons_of_mem _))
      simp only [List.mem_append, List.mem_map, List.mem_cons, reduceCtorEq, false_or, and_false,
        exists_false, Step.enter.injEq, Step.leave.injEq, exists_eq_right] at hw
      rcases hw with (hw | hw) | (rfl | hw)
      · exact huv.tail hw
      · exact hinner (.inl hw)
      · exact huv
      · exact hinner (.inr hw)
  · rcases append_leave_cases he with ⟨rfl, rfl, rfl⟩ | ⟨inner, rfl, hrest⟩
    · exact .inr (List.mem_map.mpr ⟨w, hw, rfl⟩)
    · rcases h.entered (.enter v :: inner) u below (hrest ▸ rfl) w hw with hfresh | hmem
      · exact .inl (hkeep hfresh)
      · rcases List.mem_cons.mp hmem with he | hmem
        · cases he
          exact .inl (by rw [Traversal.isFresh_discover, if_pos rfl])
        · exact .inr (List.mem_append_right _ (List.mem_cons_of_mem _ hmem))
  · rcases append_leave_cases he with ⟨rfl, rfl, rfl⟩ | ⟨inner, rfl, hrest⟩
    · -- nothing was left since the vertex was entered
      refine ⟨[], t.finished, rfl, List.forall_mem_nil _, fun x hx w hw => ?_⟩
      by_cases hlarge : g.size ≤ w
      · exact .inr (.inr hlarge)
      · have hmem := (h.visited w).mpr ⟨Nat.not_le.mp hlarge, h.closed x hx w hw⟩
        rcases List.mem_append.mp hmem with hopen | hleft
        · exact .inr (.inl hopen)
        · exact .inl hleft
    · exact h.split (.enter v :: inner) u below (hrest ▸ rfl)

theorem explore (h : g.IsNested pending t) : g.IsNested [] (g.explore pending t) := by
  induction pending, t using explore.induct g with
  | case1 t =>
      rw [Graph.explore]
      exact h
  | case2 v rest t ih =>
      rw [Graph.explore]
      exact ih h.leave_cons
  | case3 v rest t hv _ ih =>
      rw [Graph.explore, dif_pos hv]
      exact ih (h.discover hv)
  | case4 v rest t hv ih =>
      rw [Graph.explore, dif_neg hv]
      exact ih (h.enter_cons (Bool.eq_false_iff.mpr hv))

end IsNested

theorem isNested_start (g : Graph) (roots : List Nat) : g.IsNested (roots.map .enter) g.start := by
  have hno : ∀ {above v below}, roots.map Step.enter ≠ above ++ .leave v :: below := by
    intro above v below he
    have hmem : Step.leave v ∈ roots.map Step.enter := he ▸ List.mem_append_right _ List.mem_cons_self
    obtain ⟨w, -, he⟩ := List.mem_map.mp hmem
    cases he
  have hopen : openVertices (roots.map .enter) = [] := by
    have happend : openVertices (roots.map .enter ++ []) = [] := openVertices_enters
    rwa [List.append_nil] at happend
  refine ⟨fun v hv => ?_, ?_, fun v => ?_, List.forall_mem_nil _, fun _ _ _ he => absurd he hno,
    fun _ _ _ he => absurd he hno, fun _ _ _ he => absurd he hno, fun later v earlier he => ?_⟩
  · exact (collects_start g).fresh_lt v hv
  · rw [hopen]
    exact List.nodup_nil
  · rw [hopen]
    exact iff_of_false List.not_mem_nil fun ⟨hv, hfresh⟩ => by
      rw [isFresh_start hv] at hfresh
      cases hfresh
  · cases later <;> cases he

/-- A vertex reaches all that reach it through vertices that were left before it. -/
theorem IsFinishOrder.reaches {left later earlier : List Nat} (h : g.IsFinishOrder left)
    (hn : left.Nodup) (hleft : left = later ++ v :: earlier)
    (hu : Relation.ReflTransGen (fun x y => g.Edge x y ∧ x ∈ v :: earlier ∧ y ∈ v :: earlier) u v)
    (hmem : u ∈ v :: earlier) : g.Reaches v u := by
  obtain ⟨since, before, rfl, hsince, hbefore⟩ := h later v earlier hleft
  -- a path that starts in `before` stays there, and `v` is not in it
  have hstays : ∀ {x}, Relation.ReflTransGen (fun x y => g.Edge x y ∧ x ∈ v :: (since ++ before) ∧
      y ∈ v :: (since ++ before)) u x → u ∈ before → x ∈ before := by
    intro x hx hu
    induction hx with
    | refl => exact hu
    | tail _ hxy ih => exact (hbefore _ ih _ hxy.1).resolve_right fun hout => hout hxy.2.2
  have hv : v ∉ before := fun hv => by
    rw [hleft] at hn
    exact (List.nodup_cons.mp (List.nodup_append.mp hn).2.1).1 (List.mem_append_right since hv)
  rcases List.mem_cons.mp hmem with rfl | hmem
  · exact .refl
  · rcases List.mem_append.mp hmem with hmem | hmem
    · exact hsince u hmem
    · exact absurd (hstays hu hmem) hv

end Graph
end FinitePlanning
