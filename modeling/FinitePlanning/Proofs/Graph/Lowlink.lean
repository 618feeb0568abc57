import FinitePlanning.Proofs.Graph.Connectivity

/-!
Components found in one pass. Each vertex gets a number when it is visited, and a low number, which
is the number of some vertex that it reaches. The visited vertices that are in no component yet are
stacked. A vertex whose low number is its own when it is left closes a component: the vertices that
are stacked from it on.
-/

namespace FinitePlanning
namespace Graph

/-- A vertex that was visited and not left. -/
structure Frame where
  vertex : Nat
  /-- The successors that are still to be looked at. -/
  pending : List Nat
deriving DecidableEq, Repr

def frame (g : Graph) (v : Nat) : Frame :=
  ⟨v, g.successorsOf v⟩

/-- How far the pass has come. -/
structure Lowlinks (size : Nat) where
  /-- The number of each vertex that was visited. -/
  numbers : Vector (Option Nat) size
  /-- The low number of each vertex that was visited. -/
  lows : Vector Nat size
  /-- Whether each vertex is stacked. -/
  stacked : Vector Bool size
  /-- The stacked vertices, last first. -/
  stack : List Nat := []
  /-- The components that were found, last first. -/
  found : List (List Nat) := []
  /-- The number of the next vertex. -/
  next : Nat := 0

namespace Lowlinks

variable {n : Nat}

def start (n : Nat) : Lowlinks n :=
  { numbers := .replicate n none, lows := .replicate n 0, stacked := .replicate n false }

def isFresh (s : Lowlinks n) (v : Nat) : Bool :=
  s.numbers[v]? == some none

def number (s : Lowlinks n) (v : Nat) : Nat :=
  (s.numbers[v]?.getD none).getD 0

def low (s : Lowlinks n) (v : Nat) : Nat :=
  s.lows[v]?.getD 0

def isStacked (s : Lowlinks n) (v : Nat) : Bool :=
  s.stacked[v]?.getD false

def visit (s : Lowlinks n) (v : Nat) : Lowlinks n :=
  { s with
    numbers := s.numbers.setIfInBounds v (some s.next)
    lows := s.lows.setIfInBounds v s.next
    stacked := s.stacked.setIfInBounds v true
    stack := v :: s.stack
    next := s.next + 1 }

/-- Lowers the low number of a vertex to a bound. -/
def lower (s : Lowlinks n) (v bound : Nat) : Lowlinks n :=
  { s with lows := s.lows.setIfInBounds v (min (s.low v) bound) }

/-- Looks at an edge to a vertex that was visited before. -/
def look (s : Lowlinks n) (v w : Nat) : Lowlinks n :=
  if s.isStacked w then s.lower v (s.number w) else s

/-- Moves the vertices that are stacked from a vertex on to a component. -/
def release (s : Lowlinks n) (v : Nat) : Lowlinks n :=
  let rest := s.stack.dropWhile (· != v)
  let members := (s.stack.takeWhile (· != v) ++ rest.take 1).reverse
  { s with
    stacked := members.foldl (·.setIfInBounds · false) s.stacked
    stack := rest.drop 1
    found := members :: s.found }

/-- Closes a component if the low number of a vertex is its own. -/
def close (s : Lowlinks n) (v : Nat) : Lowlinks n :=
  if s.low v = s.number v then s.release v else s

/-- Leaves a vertex, which was visited from the parent if there is one. -/
def leave (s : Lowlinks n) (v : Nat) : Option Nat → Lowlinks n
  | none => s.close v
  | some parent => (s.lower parent (s.low v)).close v

theorem isFresh_iff {s : Lowlinks n} {v : Nat} :
    s.isFresh v = true ↔ ∃ h : v < n, s.numbers[v] = none := by
  rw [isFresh, beq_iff_eq, Vector.getElem?_eq_some_iff]

theorem count_visit {s : Lowlinks n} {v : Nat} (h : s.isFresh v = true) :
    (s.visit v).numbers.count none < s.numbers.count none := by
  obtain ⟨hv, hnone⟩ := isFresh_iff.mp h
  have hpos : 0 < s.numbers.count none := Vector.count_pos_iff.mpr (hnone ▸ Vector.getElem_mem hv)
  have hset : (s.visit v).numbers = s.numbers.set v (some s.next) := by
    ext i hi : 1
    simp [visit, Vector.getElem_setIfInBounds, Vector.getElem_set]
  have hcount : (s.visit v).numbers.count none = s.numbers.count none - 1 := by
    simp [hset, Vector.count_set, hnone]
  exact hcount ▸ Nat.sub_lt hpos Nat.one_pos

theorem numbers_look (s : Lowlinks n) (v w : Nat) : (s.look v w).numbers = s.numbers := by
  unfold look
  split <;> rfl

theorem numbers_close (s : Lowlinks n) (v : Nat) : (s.close v).numbers = s.numbers := by
  unfold close
  split <;> rfl

theorem numbers_leave (s : Lowlinks n) (v : Nat) (parent : Option Nat) :
    (s.leave v parent).numbers = s.numbers := by
  cases parent with
  | none => exact s.numbers_close v
  | some u => exact (s.lower u (s.low v)).numbers_close v

end Lowlinks

/-- The steps of a traversal that is left to make. -/
def steps (frames : List Frame) (roots : List Nat) : List Step :=
  frames.flatMap (fun f => f.pending.map .enter ++ [.leave f.vertex]) ++ roots.map .enter

/-- Visits what is reached from the successors that are to be looked at and from the roots. The frame
of the vertex that was visited last is the first one. -/
def search (g : Graph) : List Frame → List Nat → Lowlinks g.size → Lowlinks g.size
  | [], [], s => s
  | [], root :: roots, s =>
    if h : s.isFresh root = true then
      have := Lowlinks.count_visit h
      g.search [g.frame root] roots (s.visit root)
    else g.search [] roots s
  | ⟨v, w :: pending⟩ :: frames, roots, s =>
    if h : s.isFresh w = true then
      have := Lowlinks.count_visit h
      g.search (g.frame w :: ⟨v, pending⟩ :: frames) roots (s.visit w)
    else
      have := s.numbers_look v w
      g.search (⟨v, pending⟩ :: frames) roots (s.look v w)
  | ⟨v, []⟩ :: frames, roots, s =>
    have := s.numbers_leave v (frames.head?.map Frame.vertex)
    g.search frames roots (s.leave v (frames.head?.map Frame.vertex))
termination_by frames roots s => (s.numbers.count none, (steps frames roots).length)
decreasing_by
  · exact .left _ _ this
  · exact .right _ (by simp [steps])
  · exact .left _ _ this
  · exact this ▸ .right _ (by simp [steps])
  · exact this ▸ .right _ (by simp [steps])

/-- The strongly connected components by low numbers. -/
def lowlinkComponents (g : Graph) : List (List Nat) :=
  (g.search [] g.vertices (.start g.size)).found

/-! ### What the operations change -/

namespace Lowlinks

variable {n : Nat} {s : Lowlinks n} {l u v w bound : Nat} {above below : List Nat}

theorem lt_of_isFresh (h : s.isFresh v = true) : v < n :=
  (isFresh_iff.mp h).1

theorem getElem?_set {α : Type} (xs : Vector α n) (a : α) (h : v < n) :
    (xs.setIfInBounds v a)[w]? = if w = v then some a else xs[w]? := by
  by_cases hw : w = v
  · subst hw
    simp [h]
  · simp [Ne.symm hw, hw]

theorem isFresh_visit (h : v < n) :
    (s.visit v).isFresh w = if w = v then false else s.isFresh w := by
  rw [isFresh, visit, getElem?_set _ _ h]
  split <;> rfl

theorem number_visit (h : v < n) :
    (s.visit v).number w = if w = v then s.next else s.number w := by
  rw [number, visit, getElem?_set _ _ h]
  split <;> rfl

theorem low_visit (h : v < n) : (s.visit v).low w = if w = v then s.next else s.low w := by
  rw [low, visit, getElem?_set _ _ h]
  split <;> rfl

theorem isStacked_visit (h : v < n) :
    (s.visit v).isStacked w = if w = v then true else s.isStacked w := by
  rw [isStacked, visit, getElem?_set _ _ h]
  split <;> rfl

theorem low_lower : (s.lower v bound).low w = if w = v then min (s.low v) bound else s.low w := by
  by_cases hw : w = v
  · subst hw
    by_cases h : w < n <;> simp [low, lower, h]
  · simp [low, lower, Ne.symm hw, hw]

theorem lower_of_le (h : s.low v ≤ bound) : s.lower v bound = s := by
  have hlows : s.lows.setIfInBounds v (min (s.low v) bound) = s.lows := by
    ext i hi
    rw [Vector.getElem_setIfInBounds, Nat.min_eq_left h]
    split
    next he =>
      subst he
      simp [low, hi]
    next => rfl
  rw [lower, hlows]

theorem leave_of_eq {parent : Option Nat} (h : s.low v = s.number v)
    (hparent : ∀ u ∈ parent, s.low u ≤ s.low v) : s.leave v parent = s.release v := by
  cases parent with
  | none => exact if_pos h
  | some u => rw [leave, lower_of_le (hparent u rfl), close, if_pos h]

theorem leave_of_ne (h : s.low v ≠ s.number v) (hne : v ≠ u) :
    s.leave v (some u) = s.lower u (s.low v) := by
  refine if_neg fun he => h ?_
  rwa [low_lower, if_neg hne] at he

theorem getElem?_foldl_set (members : List Nat) (a : Bool) (xs : Vector Bool n) (v : Nat) :
    (members.foldl (·.setIfInBounds · a) xs)[v]? =
      if v ∈ members ∧ v < n then some a else xs[v]? := by
  have harray : members.foldl (·.setIfInBounds · a) xs.toArray =
      (members.foldl (·.setIfInBounds · a) xs).toArray := List.foldl_hom _ fun _ _ => rfl
  rw [← Vector.getElem?_toArray, ← harray, Graph.getElem?_foldl_set, Vector.size_toArray,
    Vector.getElem?_toArray]

theorem release_eq (hs : s.stack = above ++ v :: below) (hv : v ∉ above) : s.release v =
    { s with
      stacked := (above ++ [v]).reverse.foldl (·.setIfInBounds · false) s.stacked
      stack := below
      found := (above ++ [v]).reverse :: s.found } := by
  have hkeep : ∀ x ∈ above, (x != v) = true := fun x hx =>
    bne_iff_ne.mpr fun he => hv (he ▸ hx)
  have hstop : ¬(v != v) = true := Bool.eq_false_iff.mp (bne_self_eq_false v)
  simp only [release, hs, List.takeWhile_append_of_pos hkeep, List.dropWhile_append_of_pos hkeep,
    List.takeWhile_cons, List.dropWhile_cons, if_neg hstop, List.append_nil, List.take_succ_cons,
    List.take_zero, List.drop_succ_cons, List.drop_zero]

theorem stack_release (hs : s.stack = above ++ v :: below) (hv : v ∉ above) :
    (s.release v).stack = below := by
  rw [release_eq hs hv]

theorem found_release (hs : s.stack = above ++ v :: below) (hv : v ∉ above) :
    (s.release v).found = (above ++ [v]).reverse :: s.found := by
  rw [release_eq hs hv]

theorem isStacked_release (hs : s.stack = above ++ v :: below) (hv : v ∉ above) :
    (s.release v).isStacked w = if w ∈ above ++ [v] then false else s.isStacked w := by
  simp only [release_eq hs hv, isStacked, getElem?_foldl_set, List.mem_reverse]
  by_cases hw : w < n <;> by_cases hm : w ∈ above ++ [v] <;> simp [hw, hm]

/-- A vertex was visited, and if it is stacked, then not before a number was given. -/
def Covers (s : Lowlinks n) (l w : Nat) : Prop :=
  s.isFresh w = false ∧ (w ∈ s.stack → l ≤ s.number w)

theorem Covers.mono {k : Nat} (h : s.Covers l w) (hk : k ≤ l) : s.Covers k w :=
  ⟨h.1, fun hw => Nat.le_trans hk (h.2 hw)⟩

theorem Covers.visit (h : s.Covers l w) (hv : s.isFresh v = true) : (s.visit v).Covers l w := by
  have hne : w ≠ v := fun he => absurd (he ▸ h.1) (by simp [hv])
  have hlt := lt_of_isFresh hv
  refine ⟨by rw [isFresh_visit hlt, if_neg hne, h.1], fun hw => ?_⟩
  rw [number_visit hlt, if_neg hne]
  exact h.2 ((List.mem_cons.mp hw).resolve_left hne)

end Lowlinks

/-! ### What holds while vertices are visited -/

variable {g : Graph} {s s' : Lowlinks g.size} {f : Frame} {frames : List Frame}
  {above below stack pending roots : List Nat} {u v w k : Nat}

/-- What holds of a frame. The vertices above were stacked since its vertex was visited and belong to
no later frame, and those below were stacked before. -/
structure IsFrame (g : Graph) (s : Lowlinks g.size) (f : Frame) (above below : List Nat) : Prop where
  edges : ∀ w ∈ f.pending, g.Edge f.vertex w
  connected : ∀ v ∈ above, g.Reaches f.vertex v ∧ g.Reaches v f.vertex
  low_le : s.low f.vertex ≤ s.number f.vertex
  low_mem : ∃ u ∈ f.vertex :: below, s.number u = s.low f.vertex ∧ g.Reaches f.vertex u
  covers : ∀ v ∈ f.vertex :: above, ∀ w, g.Edge v w →
    v = f.vertex ∧ w ∈ f.pending ∨ s.Covers (s.low f.vertex) w

/-- The stacked vertices in parts, one for each frame. -/
inductive IsStack (g : Graph) (s : Lowlinks g.size) : List Frame → List Nat → Prop
  | nil : IsStack g s [] []
  | cons {f : Frame} {frames : List Frame} {above below : List Nat} :
    g.IsFrame s f above below → (∀ p ∈ frames.head?, g.Reaches p.vertex f.vertex) →
    IsStack g s frames below → IsStack g s (f :: frames) (above ++ f.vertex :: below)

theorem IsFrame.congr (h : g.IsFrame s f above below)
    (hnumber : ∀ v ∈ f.vertex :: below, s'.number v = s.number v)
    (hlow : s'.low f.vertex = s.low f.vertex) (hcovers : ∀ l w, s.Covers l w → s'.Covers l w) :
    g.IsFrame s' f above below where
  edges := h.edges
  connected := h.connected
  low_le := by
    rw [hlow, hnumber f.vertex List.mem_cons_self]
    exact h.low_le
  low_mem := by
    obtain ⟨u, hu, hlow', hreach⟩ := h.low_mem
    exact ⟨u, hu, by rw [hnumber u hu, hlow, hlow'], hreach⟩
  covers v hv w hw := (h.covers v hv w hw).imp_right fun hc => hlow ▸ hcovers _ w hc

theorem isFrame_visit (hw : s.isFresh w = true) (below : List Nat) :
    g.IsFrame (s.visit w) (g.frame w) [] below := by
  have hlt := Lowlinks.lt_of_isFresh hw
  have hlow : (s.visit w).low w = (s.visit w).number w := by
    rw [Lowlinks.number_visit hlt, Lowlinks.low_visit hlt, if_pos rfl, if_pos rfl]
  exact ⟨fun _ hv => hv, List.forall_mem_nil _, Nat.le_of_eq hlow,
    ⟨w, List.mem_cons_self, hlow.symm, .refl⟩,
    List.forall_mem_singleton.mpr fun v hv => .inl ⟨rfl, hv⟩⟩

/-- The vertex of a frame reaches a stacked vertex, so that its low number is lowered. -/
theorem IsFrame.lower (h : g.IsFrame s f above below)
    (hdec : (above ++ f.vertex :: below).Pairwise fun v w => s.number w < s.number v)
    (hu : u ∈ above ++ f.vertex :: below) (hreach : g.Reaches f.vertex u) :
    g.IsFrame (s.lower f.vertex (s.number u)) f above below := by
  have hlow : (s.lower f.vertex (s.number u)).low f.vertex =
      min (s.low f.vertex) (s.number u) := by
    rw [Lowlinks.low_lower, if_pos rfl]
  refine ⟨h.edges, h.connected, ?_, ?_, fun v hv w hw => (h.covers v hv w hw).imp_right fun hc => ?_⟩
  · rw [hlow]
    exact Nat.le_trans (Nat.min_le_left _ _) h.low_le
  · rw [hlow]
    rcases List.mem_append.mp hu with hu | hu
    · -- what is stacked later has a larger number
      have hlt := (List.pairwise_append.mp hdec).2.2 u hu f.vertex List.mem_cons_self
      rw [Nat.min_eq_left (Nat.le_trans h.low_le (Nat.le_of_lt hlt))]
      exact h.low_mem
    · rcases Nat.le_total (s.low f.vertex) (s.number u) with hle | hle
      · rw [Nat.min_eq_left hle]
        exact h.low_mem
      · rw [Nat.min_eq_right hle]
        exact ⟨u, hu, rfl, hreach⟩
  · rw [hlow]
    exact hc.mono (Nat.min_le_left _ _)

namespace IsStack

theorem eq_nil (h : g.IsStack s [] stack) : stack = [] := by
  cases h
  rfl

theorem exists_isFrame (h : g.IsStack s (f :: frames) stack) : ∃ above below,
    stack = above ++ f.vertex :: below ∧ g.IsFrame s f above below ∧
      (∀ p ∈ frames.head?, g.Reaches p.vertex f.vertex) ∧ g.IsStack s frames below := by
  cases h with
  | cons hframe hparent hbelow => exact ⟨_, _, rfl, hframe, hparent, hbelow⟩

/-- An operation keeps the parts if it keeps the numbers of the stacked vertices and what is
covered. -/
theorem congr (h : g.IsStack s frames stack) (hnumber : ∀ v ∈ stack, s'.number v = s.number v)
    (hlow : ∀ v ∈ stack, s'.low v = s.low v) (hcovers : ∀ l w, s.Covers l w → s'.Covers l w) :
    g.IsStack s' frames stack := by
  induction h with
  | nil => exact .nil
  | cons hframe hparent _ ih =>
      rw [List.forall_mem_append] at hnumber hlow
      exact .cons (hframe.congr hnumber.2 (hlow.2 _ List.mem_cons_self) hcovers) hparent
        (ih (fun v hv => hnumber.2 v (List.mem_cons_of_mem _ hv))
          fun v hv => hlow.2 v (List.mem_cons_of_mem _ hv))

theorem vertex_mem (h : g.IsStack s frames stack) : ∀ f ∈ frames, f.vertex ∈ stack := by
  induction h with
  | nil => exact List.forall_mem_nil _
  | cons _ _ _ ih =>
      exact List.forall_mem_cons.mpr ⟨List.mem_append_right _ List.mem_cons_self, fun f hf =>
        List.mem_append_right _ (List.mem_cons_of_mem _ (ih f hf))⟩

/-- All stacked vertices reach the vertex that was visited last among those that were not left. -/
theorem reaches (h : g.IsStack s frames stack) :
    ∀ f ∈ frames.head?, ∀ v ∈ stack, g.Reaches v f.vertex := by
  induction h with
  | nil => exact nofun
  | @cons f frames above below hframe hparent hbelow ih =>
      rintro f' ⟨⟩ v hv
      rcases List.mem_append.mp hv with hv | hv
      · exact (hframe.connected v hv).2
      · rcases List.mem_cons.mp hv with rfl | hv
        · exact .refl
        · cases hbelow with
          | nil => cases hv
          | cons _ _ _ => exact (ih _ rfl v hv).trans (hparent _ rfl)

/-- One more successor was looked at. -/
theorem advance (h : g.IsStack s (⟨v, w :: pending⟩ :: frames) stack) (hw : s.Covers (s.low v) w) :
    g.IsStack s (⟨v, pending⟩ :: frames) stack := by
  obtain ⟨above, below, rfl, hframe, hparent, hbelow⟩ := h.exists_isFrame
  refine .cons (f := ⟨v, pending⟩) ⟨fun u hu => hframe.edges u (List.mem_cons_of_mem w hu),
    hframe.connected, hframe.low_le, hframe.low_mem, fun x hx y hy => ?_⟩ hparent hbelow
  rcases hframe.covers x hx y hy with ⟨rfl, hmem⟩ | hcovers
  · rcases List.mem_cons.mp hmem with rfl | hmem
    · exact .inr hw
    · exact .inl ⟨rfl, hmem⟩
  · exact .inr hcovers

theorem lower (h : g.IsStack s (f :: frames) stack)
    (hdec : stack.Pairwise fun v w => s.number w < s.number v) (hu : u ∈ stack)
    (hreach : g.Reaches f.vertex u) :
    g.IsStack (s.lower f.vertex (s.number u)) (f :: frames) stack := by
  obtain ⟨above, below, rfl, hframe, hparent, hbelow⟩ := h.exists_isFrame
  refine .cons (hframe.lower hdec hu hreach) hparent
    (hbelow.congr (fun _ _ => rfl) (fun v hv => ?_) fun _ _ => id)
  have hlt := List.rel_of_pairwise_cons (List.pairwise_append.mp hdec).2.1 hv
  rw [Lowlinks.low_lower, if_neg fun he => Nat.lt_irrefl _ (he ▸ hlt)]

/-- The vertices that were stacked since a vertex was visited become part of the frame below. -/
theorem merge (h : g.IsStack s (f :: frames) stack)
    (hconnected : ∀ v ∈ above, g.Reaches f.vertex v ∧ g.Reaches v f.vertex)
    (hcovers : ∀ v ∈ above, ∀ w, g.Edge v w → s.Covers (s.low f.vertex) w) :
    g.IsStack s (f :: frames) (above ++ stack) := by
  obtain ⟨above', below, rfl, hframe, hparent, hbelow⟩ := h.exists_isFrame
  rw [← List.append_assoc]
  refine .cons ⟨hframe.edges, List.forall_mem_append.mpr ⟨hconnected, hframe.connected⟩,
    hframe.low_le, hframe.low_mem, List.forall_mem_cons.mpr
      ⟨hframe.covers _ List.mem_cons_self, List.forall_mem_append.mpr
        ⟨fun v hv w hw => .inr (hcovers v hv w hw),
          fun v hv => hframe.covers v (List.mem_cons_of_mem _ hv)⟩⟩⟩ hparent hbelow

end IsStack

/-- What holds of the components that were found. -/
structure IsFound (g : Graph) (s : Lowlinks g.size) : Prop where
  nonempty : ∀ c ∈ s.found, c ≠ []
  connected : g.AreConnected s.found
  closed : ∀ v ∈ s.found.flatten, ∀ w, g.Edge v w → w < g.size → w ∈ s.found.flatten
  /-- No edge leads from a component to a later one. -/
  apart : s.found.Pairwise fun later earlier => ∀ v ∈ earlier, ∀ w ∈ later, w ∉ g.successorsOf v
  increasing : ∀ c ∈ s.found, c.Pairwise fun v w => s.number v < s.number w

/-- What holds while there are frames and roots left. -/
structure IsSearch (g : Graph) (frames : List Frame) (roots : List Nat) (s : Lowlinks g.size) :
    Prop where
  stack : g.IsStack s frames s.stack
  found : g.IsFound s
  stacked : ∀ v, s.isStacked v = true ↔ v ∈ s.stack
  visited : ∀ v, v ∈ s.stack ++ s.found.flatten ↔ v < g.size ∧ s.isFresh v = false
  nodup : (s.stack ++ s.found.flatten).Nodup
  decreasing : s.stack.Pairwise fun v w => s.number w < s.number v
  number_lt : ∀ v ∈ s.stack, s.number v < s.next
  roots : ∀ v, s.isFresh v = true → v ∈ roots

namespace IsSearch

theorem start (g : Graph) : g.IsSearch [] g.vertices (.start g.size) where
  stack := .nil
  found := ⟨List.forall_mem_nil _, List.forall_mem_nil _, nofun, .nil, List.forall_mem_nil _⟩
  stacked v := by
    by_cases hv : v < g.size <;> simp [Lowlinks.isStacked, Lowlinks.start, hv]
  visited v := by
    by_cases hv : v < g.size <;> simp [Lowlinks.isFresh, Lowlinks.start, hv]
  nodup := .nil
  decreasing := .nil
  number_lt := List.forall_mem_nil _
  roots v hv := List.mem_range.mpr (Lowlinks.lt_of_isFresh hv)

theorem not_mem (h : g.IsSearch frames roots s) (hv : s.isFresh v = true) :
    v ∉ s.stack ++ s.found.flatten := fun hmem => by
  rw [((h.visited v).mp hmem).2] at hv
  cases hv

/-- A root that was visited is passed over. -/
theorem skip (h : g.IsSearch frames (w :: roots) s) (hw : s.isFresh w = false) :
    g.IsSearch frames roots s where
  __ := h
  roots v hv := (List.mem_cons.mp (h.roots v hv)).resolve_left fun he => by
    rw [← he, hv] at hw
    cases hw

theorem stack_visit (h : g.IsSearch frames roots s) (hw : s.isFresh w = true) :
    g.IsStack (s.visit w) frames s.stack := by
  have hlt := Lowlinks.lt_of_isFresh hw
  have hne : ∀ v ∈ s.stack, v ≠ w := fun v hv he =>
    h.not_mem hw (List.mem_append_left _ (he ▸ hv))
  refine h.stack.congr (fun v hv => ?_) (fun v hv => ?_) fun l v hv => hv.visit hw
  · rw [Lowlinks.number_visit hlt, if_neg (hne v hv)]
  · rw [Lowlinks.low_visit hlt, if_neg (hne v hv)]

theorem found_visit (h : g.IsSearch frames roots s) (hw : s.isFresh w = true) :
    g.IsFound (s.visit w) where
  nonempty := h.found.nonempty
  connected := h.found.connected
  closed := h.found.closed
  apart := h.found.apart
  increasing c hc := by
    refine (h.found.increasing c hc).imp_of_mem fun {u v} hu hv huv => ?_
    have hne : ∀ x ∈ c, x ≠ w := fun x hx he =>
      h.not_mem hw (List.mem_append_right _ (List.mem_flatten.mpr ⟨c, hc, he ▸ hx⟩))
    rwa [Lowlinks.number_visit (Lowlinks.lt_of_isFresh hw), if_neg (hne u hu),
      Lowlinks.number_visit (Lowlinks.lt_of_isFresh hw), if_neg (hne v hv)]

/-- Visiting a vertex on the way from the vertex of the first frame, or as a root. -/
theorem visit (h : g.IsSearch frames roots s) (hw : s.isFresh w = true) {frames' : List Frame}
    {roots' : List Nat} (hstack : g.IsStack (s.visit w) frames' s.stack)
    (hparent : ∀ p ∈ frames'.head?, g.Edge p.vertex w) (hroots : ∀ v ∈ roots, v = w ∨ v ∈ roots') :
    g.IsSearch (g.frame w :: frames') roots' (s.visit w) := by
  have hlt := Lowlinks.lt_of_isFresh hw
  have hnew := h.not_mem hw
  have hnumber : ∀ v, (s.visit w).number v = if v = w then s.next else s.number v := fun v =>
    Lowlinks.number_visit hlt
  have hold : ∀ v ∈ s.stack, (s.visit w).number v = s.number v := fun v hv => by
    have hne : v ≠ w := fun he => hnew (List.mem_append_left _ (he ▸ hv))
    rw [hnumber, if_neg hne]
  refine ⟨.cons (isFrame_visit hw s.stack) (fun p hp => .single (hparent p hp)) hstack,
    h.found_visit hw, fun v => ?_, fun v => ?_, List.nodup_cons.mpr ⟨hnew, h.nodup⟩, ?_, ?_,
    fun v hv => ?_⟩
  · rw [Lowlinks.isStacked_visit hlt]
    have hstacked := h.stacked v
    by_cases hv : v = w <;> simp [Lowlinks.visit, hv, hstacked]
  · have hvisited := h.visited v
    rw [Lowlinks.isFresh_visit hlt]
    by_cases hv : v = w
    · subst hv
      exact iff_of_true List.mem_cons_self ⟨hlt, if_pos rfl⟩
    · rw [if_neg hv, ← hvisited]
      exact List.mem_cons.trans (or_iff_right hv)
  · refine List.pairwise_cons.mpr ⟨fun v hv => ?_, h.decreasing.imp_of_mem fun {u v} hu hv huv => ?_⟩
    · rw [hold v hv, hnumber, if_pos rfl]
      exact h.number_lt v hv
    · rwa [hold u hu, hold v hv]
  · refine List.forall_mem_cons.mpr ⟨?_, fun v hv => ?_⟩
    · rw [hnumber, if_pos rfl]
      exact Nat.lt_succ_self _
    · rw [hold v hv]
      exact Nat.lt_succ_of_lt (h.number_lt v hv)
  · rw [Lowlinks.isFresh_visit hlt] at hv
    split at hv
    next => cases hv
    next hne => exact (hroots v (h.roots v hv)).resolve_left hne

theorem visit_root (h : g.IsSearch [] (w :: roots) s) (hw : s.isFresh w = true) :
    g.IsSearch [g.frame w] roots (s.visit w) :=
  h.visit hw (h.stack_visit hw) nofun fun _ => List.mem_cons.mp

theorem visit_successor (h : g.IsSearch (⟨v, w :: pending⟩ :: frames) roots s)
    (hw : s.isFresh w = true) :
    g.IsSearch (g.frame w :: ⟨v, pending⟩ :: frames) roots (s.visit w) := by
  have hlt := Lowlinks.lt_of_isFresh hw
  have hstack := h.stack_visit hw
  have hv : v ∈ s.stack := h.stack.vertex_mem _ List.mem_cons_self
  have hne : v ≠ w := fun he => h.not_mem hw (List.mem_append_left _ (he ▸ hv))
  obtain ⟨above, below, -, hframe, -, -⟩ := h.stack.exists_isFrame
  refine h.visit hw (hstack.advance ⟨?_, fun _ => ?_⟩) ?_ fun _ => .inr
  · rw [Lowlinks.isFresh_visit hlt, if_pos rfl]
  · rw [Lowlinks.low_visit hlt, if_neg hne, Lowlinks.number_visit hlt, if_pos rfl]
    exact Nat.le_trans hframe.low_le (Nat.le_of_lt (h.number_lt v hv))
  · rintro p ⟨⟩
    exact hframe.edges w List.mem_cons_self

theorem lower (h : g.IsSearch frames roots s) {frames' : List Frame}
    (hstack : g.IsStack (s.lower v k) frames' s.stack) : g.IsSearch frames' roots (s.lower v k) where
  __ := h
  stack := hstack
  found := { h.found with }

/-- Looking at an edge to a vertex that was visited before. -/
theorem look (h : g.IsSearch (⟨v, w :: pending⟩ :: frames) roots s) (hw : s.isFresh w = false) :
    g.IsSearch (⟨v, pending⟩ :: frames) roots (s.look v w) := by
  obtain ⟨_, _, -, hframe, -, -⟩ := h.stack.exists_isFrame
  rw [Lowlinks.look]
  split
  next hstacked =>
    have hmem := (h.stacked w).mp hstacked
    refine h.lower ((h.stack.lower h.decreasing hmem
      (.single (hframe.edges w List.mem_cons_self))).advance ⟨hw, fun _ => ?_⟩)
    rw [Lowlinks.low_lower, if_pos rfl]
    exact Nat.min_le_right _ _
  next hstacked =>
    have hcovers : s.Covers (s.low v) w :=
      ⟨hw, fun hmem => absurd ((h.stacked w).mpr hmem) hstacked⟩
    exact { h with stack := h.stack.advance hcovers }

/-- The vertices that are stacked from a vertex on are closed apart from the components that were
found, if its low number is its own. -/
theorem mem_of_edge (h : g.IsSearch (⟨v, []⟩ :: frames) roots s) (hroot : s.low v = s.number v)
    (hs : s.stack = above ++ v :: below) (hframe : g.IsFrame s ⟨v, []⟩ above below) :
    ∀ u ∈ above ++ [v], ∀ w, g.Edge u w → w < g.size → w ∈ above ++ [v] ∨ w ∈ s.found.flatten := by
  intro u hu w huw hw
  have hu : u ∈ v :: above := (List.perm_append_singleton v above).subset hu
  obtain ⟨hfresh, hcovers⟩ :=
    (hframe.covers u hu w huw).resolve_left fun hmem => List.not_mem_nil hmem.2
  rcases List.mem_append.mp ((h.visited w).mpr ⟨hw, hfresh⟩) with hmem | hmem
  · refine .inl ?_
    have hle : s.number v ≤ s.number w := hroot ▸ hcovers hmem
    have hdecreasing := h.decreasing
    rw [hs] at hmem hdecreasing
    rw [List.append_cons] at hmem
    refine (List.mem_append.mp hmem).resolve_right fun hbelow => Nat.not_lt.mpr hle ?_
    exact List.rel_of_pairwise_cons (List.pairwise_append.mp hdecreasing).2.1 hbelow
  · exact .inr hmem

/-- What is stacked from a vertex on becomes a component if its low number is its own. -/
theorem found_release (h : g.IsSearch (⟨v, []⟩ :: frames) roots s) (hroot : s.low v = s.number v)
    (hs : s.stack = above ++ v :: below) (hv : v ∉ above)
    (hframe : g.IsFrame s ⟨v, []⟩ above below) : g.IsFound (s.release v) := by
  have hclosed := h.mem_of_edge hroot hs hframe
  have hs' : above ++ v :: below = above ++ [v] ++ below := List.append_cons ..
  have hdecreasing := h.decreasing
  have hnodup := h.nodup
  rw [hs, hs'] at hdecreasing hnodup
  refine ⟨?_, ?_, ?_, ?_, ?_⟩ <;> rw [Lowlinks.found_release hs hv]
  · exact List.forall_mem_cons.mpr ⟨by simp, h.found.nonempty⟩
  · refine List.forall_mem_cons.mpr ⟨⟨v, fun u hu => ?_⟩, h.found.connected⟩
    rcases List.mem_append.mp (List.mem_reverse.mp hu) with hu | hu
    · exact (hframe.connected u hu).symm
    · obtain rfl := List.mem_singleton.mp hu
      exact ⟨.refl, .refl⟩
  · rw [List.flatten_cons]
    refine List.forall_mem_append.mpr ⟨fun u hu w huw hw => ?_, fun u hu w huw hw =>
      List.mem_append_right _ (h.found.closed u hu w huw hw)⟩
    rw [List.mem_append, List.mem_reverse]
    exact hclosed u (List.mem_reverse.mp hu) w huw hw
  · refine List.pairwise_cons.mpr ⟨fun c hc u hu w hw huw => ?_, h.found.apart⟩
    have hw := List.mem_append_left below (List.mem_reverse.mp hw)
    have hlt := ((h.visited w).mp (List.mem_append_left _ (hs.trans hs' ▸ hw))).1
    exact (List.nodup_append.mp hnodup).2.2 w hw w
      (h.found.closed u (List.mem_flatten.mpr ⟨c, hc, hu⟩) w huw hlt) rfl
  · refine List.forall_mem_cons.mpr ⟨?_, h.found.increasing⟩
    exact List.pairwise_reverse.mpr (List.pairwise_append.mp hdecreasing).1

/-- Closing a component. -/
theorem release (h : g.IsSearch (⟨v, []⟩ :: frames) roots s) (hroot : s.low v = s.number v) :
    g.IsSearch frames roots (s.release v) := by
  obtain ⟨above, below, hs, hframe, -, hbelow⟩ := h.stack.exists_isFrame
  dsimp only at hs
  have hs' : s.stack = above ++ [v] ++ below := hs.trans (List.append_cons ..)
  have hnodup := (List.nodup_append.mp h.nodup).1
  rw [hs'] at hnodup
  have hv : v ∉ above := fun hv => (List.nodup_append.mp (List.nodup_append.mp hnodup).1).2.2
    v hv v (List.mem_singleton_self v) rfl
  have hstack := Lowlinks.stack_release hs hv
  have hperm : ((s.release v).stack ++ (s.release v).found.flatten).Perm
      (s.stack ++ s.found.flatten) := by
    rw [hstack, Lowlinks.found_release hs hv, hs', List.flatten_cons, ← List.append_assoc]
    exact (List.perm_append_comm.trans ((List.reverse_perm _).append_right below)).append_right _
  have hsub : (s.release v).stack.Sublist s.stack := by
    rw [hstack, hs']
    exact List.sublist_append_right _ _
  refine ⟨?_, h.found_release hroot hs hv hframe, fun w => ?_,
    fun w => hperm.mem_iff.trans (h.visited w), hperm.nodup_iff.mpr h.nodup,
    h.decreasing.sublist hsub, fun w hw => h.number_lt w (hsub.subset hw), h.roots⟩
  · rw [hstack]
    exact hbelow.congr (fun _ _ => rfl) (fun _ _ => rfl) fun l w hc =>
      ⟨hc.1, fun hw => hc.2 (hsub.subset hw)⟩
  · rw [Lowlinks.isStacked_release hs hv, hstack]
    have hstacked := h.stacked w
    rw [hs', List.mem_append] at hstacked
    by_cases hmem : w ∈ above ++ [v]
    · have hout : w ∉ below := fun hw => (List.nodup_append.mp hnodup).2.2 w hmem w hw rfl
      rw [if_pos hmem]
      exact iff_of_false Bool.false_ne_true hout
    · rw [if_neg hmem, hstacked]
      exact or_iff_right hmem

/-- A vertex that closes no component is part of its parent's, and so is what was stacked since. -/
theorem leave_child {p : Frame} (h : g.IsSearch (⟨v, []⟩ :: p :: frames) roots s)
    (hu : u ∈ s.stack) (hlow : s.number u = s.low v) (hlt : s.low v < s.number v)
    (hvu : g.Reaches v u) : g.IsSearch (p :: frames) roots (s.leave v (some p.vertex)) := by
  obtain ⟨above, below, hs, hframe, hparent, hbelow⟩ := h.stack.exists_isFrame
  have hdecreasing := h.decreasing
  rw [hs] at hu hdecreasing
  have hbelow_lt := (List.pairwise_append.mp hdecreasing).2.1
  have hu : u ∈ below := by
    rcases List.mem_append.mp hu with hu | hu
    · have := (List.pairwise_append.mp hdecreasing).2.2 u hu v List.mem_cons_self
      omega
    · refine (List.mem_cons.mp hu).resolve_left fun he => ?_
      rw [he] at hlow
      exact Nat.ne_of_gt hlt hlow
  have hpv : g.Reaches p.vertex v := hparent p rfl
  have hvp : g.Reaches v p.vertex := hvu.trans (hbelow.reaches p rfl u hu)
  have hne : v ≠ p.vertex := fun he => Nat.lt_irrefl _
    (he ▸ List.rel_of_pairwise_cons hbelow_lt (hbelow.vertex_mem p List.mem_cons_self))
  rw [Lowlinks.leave_of_ne (Nat.ne_of_lt hlt) hne, ← hlow]
  refine h.lower ?_
  rw [hs, List.append_cons]
  refine (hbelow.lower hbelow_lt.of_cons hu (hpv.trans hvu)).merge ?_ fun x hx w hw => ?_
  · exact List.forall_mem_append.mpr ⟨fun x hx => ⟨hpv.trans (hframe.connected x hx).1,
      (hframe.connected x hx).2.trans hvp⟩, List.forall_mem_singleton.mpr ⟨hpv, hvp⟩⟩
  · have hx := (List.perm_append_singleton v above).subset hx
    refine ((hframe.covers x hx w hw).resolve_left fun hmem => List.not_mem_nil hmem.2).mono ?_
    rw [Lowlinks.low_lower, if_pos rfl, ← hlow]
    exact Nat.min_le_right _ _

/-- A vertex that closes a component does not lower the low number of its parent. -/
theorem leave_root (h : g.IsSearch (⟨v, []⟩ :: frames) roots s) (hroot : s.low v = s.number v) :
    s.leave v (frames.head?.map Frame.vertex) = s.release v := by
  obtain ⟨above, below, hs, -, -, hbelow⟩ := h.stack.exists_isFrame
  have hdecreasing := (List.pairwise_append.mp (hs ▸ h.decreasing)).2.1
  refine Lowlinks.leave_of_eq hroot fun u hu => ?_
  cases hbelow with
  | nil => cases hu
  | @cons p _ _ _ hframe _ _ =>
      cases hu
      have hlt := List.rel_of_pairwise_cons hdecreasing
        (List.mem_append_right _ List.mem_cons_self : p.vertex ∈ _)
      exact hroot ▸ Nat.le_trans hframe.low_le (Nat.le_of_lt hlt)

/-- Leaving a vertex. -/
theorem leave (h : g.IsSearch (⟨v, []⟩ :: frames) roots s) :
    g.IsSearch frames roots (s.leave v (frames.head?.map Frame.vertex)) := by
  obtain ⟨above, below, hs, hframe, -, hbelow⟩ := h.stack.exists_isFrame
  rcases Nat.eq_or_lt_of_le hframe.low_le with hroot | hlt
  · exact h.leave_root hroot ▸ h.release hroot
  · obtain ⟨u, hu, hlow, hvu⟩ := hframe.low_mem
    cases frames with
    | nil =>
        -- the first stacked vertex has the least number
        cases hbelow
        obtain rfl := List.mem_singleton.mp hu
        exact absurd hlow.symm (Nat.ne_of_lt hlt)
    | cons p frames => exact h.leave_child (hs ▸ List.mem_append_right _ hu) hlow hlt hvu

end IsSearch

/-- What holds of the frames and roots in the beginning holds in the end, when none are left. -/
theorem isSearch_search (h : g.IsSearch frames roots s) :
    g.IsSearch [] [] (g.search frames roots s) := by
  induction frames, roots, s using search.induct g with
  | case1 s =>
      rw [search]
      exact h
  | case2 w roots s hw _ ih =>
      rw [search, dif_pos hw]
      exact ih (h.visit_root hw)
  | case3 w roots s hw ih =>
      rw [search, dif_neg hw]
      exact ih (h.skip (Bool.eq_false_iff.mpr hw))
  | case4 v w pending frames roots s hw _ ih =>
      rw [search, dif_pos hw]
      exact ih (h.visit_successor hw)
  | case5 v w pending frames roots s hw _ ih =>
      rw [search, dif_neg hw]
      exact ih (h.look (Bool.eq_false_iff.mpr hw))
  | case6 v frames roots s _ ih =>
      rw [search]
      exact ih h.leave

/-- The components by low numbers partition the vertices, and no edge leads to an earlier one. -/
theorem isOrderedPartition_lowlinkComponents (g : Graph) :
    g.IsOrderedPartition g.lowlinkComponents := by
  have h := isSearch_search (IsSearch.start g)
  have hnodup := h.nodup
  have hvisited := h.visited
  rw [h.stack.eq_nil, List.nil_append] at hnodup hvisited
  have hall : ∀ v, (g.search [] g.vertices (.start g.size)).isFresh v = false := fun v =>
    Bool.eq_false_iff.mpr fun hv => List.not_mem_nil (h.roots v hv)
  exact ⟨hnodup, fun v => (hvisited v).trans (and_iff_left (hall v)), h.found.nonempty,
    h.found.apart.imp fun hapart v hv w hw => hapart w hw v hv⟩

theorem areConnected_lowlinkComponents (g : Graph) : g.AreConnected g.lowlinkComponents :=
  (isSearch_search (IsSearch.start g)).found.connected

end Graph
end FinitePlanning
