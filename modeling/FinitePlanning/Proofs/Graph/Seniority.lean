import Mathlib.Data.List.MinMax
import FinitePlanning.Proofs.Graph.LateVertices

/-!
The choice by buckets is a plain greedy one, in which the vertices wait in a line: the first one of
the lightest is picked, and a vertex that becomes lighter goes to the end. A bucket holds the
vertices of its weight in the order of the line, among entries of vertices that have become lighter
or were picked. If vertices kept their places in the line, ties would be broken by position; this is
the same order only if no vertex overtakes an equally light one of smaller position.
-/

namespace FinitePlanning
namespace Graph
namespace WeightedEdges

/-! ### Greedy orders -/

/-- The vertices that are not picked in the order in which they wait, with the weights of the edges
to them. -/
abbrev Waiting := List (Nat × Nat)

/-- What becomes of a vertex when the weight of an edge is taken off its target. -/
def lightened (edge e : Nat × Nat) : Nat × Nat :=
  if e.1 = edge.1 then (e.1, e.2 - edge.2 % lateWeight) else e

/-- The weight of an edge is taken off its target, which keeps its place. -/
def lighten (waiting : Waiting) (edge : Nat × Nat) : Waiting :=
  waiting.map (lightened edge)

/-- The weight of an edge is taken off its target, which goes to the end if it becomes lighter. -/
def requeue (waiting : Waiting) (edge : Nat × Nat) : Waiting :=
  if edge.2 % lateWeight = 0 then waiting
  else waiting.filter (·.1 ≠ edge.1) ++ lighten (waiting.filter (·.1 = edge.1)) edge

/-- What waits when a vertex is picked and its edges are dealt with. -/
def leave (update : Waiting → Nat × Nat → Waiting) (edges : WeightedEdges) (v : Nat)
    (waiting : Waiting) : Waiting :=
  (edges.getD v []).foldl update (waiting.filter (·.1 ≠ v))

/-- Picks the first one of the lightest vertices, `n` times. -/
def greedy (update : Waiting → Nat × Nat → Waiting) (edges : WeightedEdges) :
    Nat → Waiting → List Nat
  | 0, _ => []
  | n + 1, waiting =>
    match waiting.argmin (·.2) with
    | none => []
    | some (v, _) => v :: greedy update edges n (leave update edges v waiting)

/-- The vertices by position, with the total weight of the edges to them. -/
def waiting (edges : WeightedEdges) : Waiting :=
  (List.range edges.size).map fun v => (v, edges.weightTo v)

/-- The order in which always the first one of the lightest vertices is picked. -/
def greedyOrder (update : Waiting → Nat × Nat → Waiting) (edges : WeightedEdges) : List Nat :=
  greedy update edges edges.size edges.waiting

/-- Whenever a vertex is picked, no other one of the same weight has a smaller position. -/
def FollowsPositions (edges : WeightedEdges) : Nat → Waiting → Prop
  | 0, _ => True
  | n + 1, waiting =>
    match waiting.argmin (·.2) with
    | none => True
    | some (v, w) => (∀ e ∈ waiting, e.2 = w → v ≤ e.1) ∧
      FollowsPositions edges n (leave requeue edges v waiting)

variable {edges : WeightedEdges} {line line' : Waiting} {edge e : Nat × Nat} {n u v w k : Nat}

@[simp] theorem greedy_nil (update : Waiting → Nat × Nat → Waiting) :
    greedy update edges n [] = [] := by
  cases n <;> rfl

@[simp] theorem fst_lightened : (lightened edge e).1 = e.1 := by
  rw [lightened]
  split <;> rfl

theorem map_fst_lighten : (lighten line edge).map (·.1) = line.map (·.1) := by
  rw [lighten, List.map_map]
  exact List.map_congr_left fun e _ => fst_lightened

theorem mem_lighten : (v, w) ∈ lighten line edge ↔
    ∃ k, (v, k) ∈ line ∧ w = if v = edge.1 then k - edge.2 % lateWeight else k := by
  rw [lighten, List.mem_map]
  constructor
  · rintro ⟨⟨u, k⟩, hmem, he⟩
    have hu : (lightened edge (u, k)).1 = u := fst_lightened
    obtain rfl : u = v := hu.symm.trans (congrArg Prod.fst he)
    refine ⟨k, hmem, (congrArg Prod.snd he).symm.trans ?_⟩
    rw [lightened]
    split <;> rfl
  · rintro ⟨k, hmem, rfl⟩
    refine ⟨(v, k), hmem, ?_⟩
    rw [lightened]
    split <;> rfl

/-- Both ways to deal with an edge lead to the same weights. -/
theorem perm_requeue : (requeue line edge).Perm (lighten line edge) := by
  rw [requeue]
  split
  next hzero =>
    refine .of_eq (map_eq_self fun e _ => ?_).symm
    rw [lightened, hzero]
    split <;> rfl
  next =>
    have hstay : lighten (line.filter (·.1 ≠ edge.1)) edge = line.filter (·.1 ≠ edge.1) := by
      refine map_eq_self fun e he => ?_
      exact if_neg (of_decide_eq_true (List.mem_filter.mp he).2)
    have hparts := (List.filter_append_perm (·.1 ≠ edge.1) line).map (lightened edge)
    rw [List.map_append] at hparts
    rw [lighten] at hstay
    rw [hstay] at hparts
    simpa [lighten] using hparts

/-- What waits when a vertex is picked are the same vertices either way. -/
theorem perm_leave (h : line.Perm line') :
    (leave requeue edges v line).Perm (leave lighten edges v line') := by
  have hfold : ∀ (targets : List (Nat × Nat)) {left left' : Waiting}, left.Perm left' →
      (targets.foldl requeue left).Perm (targets.foldl lighten left') := by
    intro targets
    induction targets with
    | nil => exact id
    | cons edge targets ih => exact fun hleft => ih (perm_requeue.trans (hleft.map _))
  exact hfold _ (h.filter _)

theorem map_fst_leave_lighten :
    (leave lighten edges v line).map (·.1) = (line.map (·.1)).filter (· ≠ v) := by
  have hfold : ∀ (targets : List (Nat × Nat)) (left : Waiting),
      (targets.foldl lighten left).map (·.1) = left.map (·.1) := by
    intro targets
    induction targets with
    | nil => exact fun _ => rfl
    | cons edge targets ih => exact fun left => (ih _).trans map_fst_lighten
  rw [leave, hfold, List.filter_map]
  rfl

/-- A vertex that is picked does not wait any longer. -/
theorem length_leave_lt (h : (v, w) ∈ line) :
    (leave requeue edges v line).length < line.length := by
  have hlength := congrArg List.length (@map_fst_leave_lighten edges line v)
  rw [List.length_map] at hlength
  have hline : (line.map (·.1)).length = line.length := List.length_map _
  rw [(perm_leave (.refl line)).length_eq, hlength, ← hline]
  exact List.length_filter_lt_length_iff_exists.mpr
    ⟨v, List.mem_map_of_mem h, by simp⟩

/-- The first element with the least value. -/
theorem argmin_eq_of_head?_filter {α : Type} {f : α → Nat} {l : List α} {m : α}
    (hmin : ∀ a ∈ l, w ≤ f a) (hfirst : (l.filter (f · = w)).head? = some m) :
    l.argmin f = some m := by
  induction l with
  | nil => cases hfirst
  | cons a l ih =>
      rw [List.forall_mem_cons] at hmin
      rw [List.argmin_cons]
      by_cases ha : f a = w
      · rw [List.filter_cons_of_pos (by simpa using ha)] at hfirst
        obtain rfl := Option.some.inj hfirst
        cases hl : l.argmin f with
        | none => rfl
        | some c => exact if_neg (Nat.not_lt.mpr (ha ▸ hmin.2 c (List.argmin_mem hl)))
      · rw [List.filter_cons_of_neg (by simpa using ha)] at hfirst
        have hm := List.mem_filter.mp (List.mem_of_head? hfirst)
        rw [ih hmin.2 hfirst]
        exact if_pos (of_decide_eq_true hm.2 ▸ Nat.lt_of_le_of_ne hmin.1 (Ne.symm ha))

namespace Picking

variable {s : Picking} {buckets rest : List (Nat × List Nat)} {vs : List Nat} {weight : Nat}

/-! ### Buckets -/

/-- The bucket of a weight. -/
def bucketAt (w : Nat) (buckets : List (Nat × List Nat)) : List Nat :=
  (buckets.lookup w).getD []

theorem bucketAt_cons :
    bucketAt w ((k, vs) :: buckets) = if w = k then vs else bucketAt w buckets := by
  rw [bucketAt, List.lookup_cons]
  by_cases h : w = k
  · rw [if_pos h, beq_iff_eq.mpr h]
    rfl
  · rw [if_neg h, beq_eq_false_iff_ne.mpr h]
    rfl

theorem exists_of_mem_bucketAt (h : v ∈ bucketAt w buckets) : ∃ vs, (w, vs) ∈ buckets := by
  rw [bucketAt] at h
  cases hw : buckets.lookup w with
  | none => rw [hw] at h; cases h
  | some vs => exact ⟨vs, mem_of_lookup hw⟩

theorem bucketAt_eq_nil (h : ∀ b ∈ buckets, w ≠ b.1) : bucketAt w buckets = [] := by
  refine List.eq_nil_iff_forall_not_mem.mpr fun v hv => ?_
  obtain ⟨vs, hvs⟩ := exists_of_mem_bucketAt hv
  exact h _ hvs rfl

theorem bucketAt_file (h : buckets.Pairwise (·.1 < ·.1)) :
    bucketAt w (file weight v buckets) =
      bucketAt w buckets ++ if w = weight then [v] else [] := by
  induction buckets with
  | nil => rw [file, bucketAt_cons]; rfl
  | cons bucket rest ih =>
      obtain ⟨k, vs⟩ := bucket
      obtain ⟨hfirst, hrest⟩ := List.pairwise_cons.mp h
      rw [file]
      split
      next hlt =>
        rw [bucketAt_cons]
        by_cases hw : w = weight
        · have hnil : bucketAt w ((k, vs) :: rest) = [] := by
            refine bucketAt_eq_nil (List.forall_mem_cons.mpr ⟨by omega, fun b hb => ?_⟩)
            have hb := hfirst b hb
            omega
          rw [if_pos hw, if_pos hw, hnil, List.nil_append]
        · rw [if_neg hw, if_neg hw, List.append_nil]
      next hge =>
        split
        next heq =>
          subst heq
          rw [bucketAt_cons, bucketAt_cons]
          split
          next => rfl
          next => rw [List.append_nil]
        next hne =>
          rw [bucketAt_cons, bucketAt_cons, ih hrest]
          split
          next hw => rw [if_neg (hw ▸ Ne.symm hne), List.append_nil]
          next => rfl

theorem bucketAt_foldl_file (entries : List (Nat × Nat)) (buckets : List (Nat × List Nat))
    (h : buckets.Pairwise (·.1 < ·.1)) :
    bucketAt w (entries.foldl (fun bs (w, v) => file w v bs) buckets) =
      bucketAt w buckets ++ (entries.filter (·.1 = w)).map (·.2) := by
  induction entries generalizing buckets with
  | nil => exact (List.append_nil _).symm
  | cons entry entries ih =>
      obtain ⟨k, v⟩ := entry
      refine (ih _ (pairwise_file h)).trans ?_
      rw [bucketAt_file h, List.append_assoc, List.filter_cons]
      by_cases hw : w = k
      · simp [hw]
      · simp [hw, Ne.symm hw]

/-! ### The line -/

/-- The vertices that wait in line stand in this order in the buckets of their weights. All other
entries of a bucket are those of vertices that have become lighter or were picked. -/
structure HasLine (s : Picking) (line : Waiting) : Prop where
  nodup : (line.map (·.1)).Nodup
  mem : ∀ v w, (v, w) ∈ line ↔ s.weight? v = some w
  sorted : s.buckets.Pairwise (·.1 < ·.1)
  light : ∀ w, ∀ v ∈ bucketAt w s.buckets, ∀ k, s.weight? v = some k → k ≤ w
  queued : ∀ w, (bucketAt w s.buckets).filter (s.weight? · = some w) =
    (line.filter (·.2 = w)).map (·.1)

namespace HasLine

/-- Entries that are outdated may be taken out of the buckets. -/
theorem shrink (h : s.HasLine line) (hsorted : buckets.Pairwise (·.1 < ·.1))
    (hsubset : ∀ w, bucketAt w buckets ⊆ bucketAt w s.buckets)
    (hcurrent : ∀ w, (bucketAt w buckets).filter (s.weight? · = some w) =
      (bucketAt w s.buckets).filter (s.weight? · = some w)) :
    Picking.HasLine { s with buckets } line where
  nodup := h.nodup
  mem := h.mem
  sorted := hsorted
  light w v hv := h.light w v (hsubset w hv)
  queued w := (hcurrent w).trans (h.queued w)

theorem drop (h : s.HasLine line) (hbuckets : s.buckets = (weight, []) :: rest) :
    Picking.HasLine { s with buckets := rest } line := by
  have hsorted := List.pairwise_cons.mp (hbuckets ▸ h.sorted)
  have hsame : ∀ w, bucketAt w rest = bucketAt w s.buckets := by
    intro w
    rw [hbuckets, bucketAt_cons]
    split
    next hw => exact bucketAt_eq_nil fun b hb => hw ▸ Nat.ne_of_lt (hsorted.1 b hb)
    next => rfl
  exact h.shrink hsorted.2 (fun w => hsame w ▸ List.Subset.refl _) fun w => by rw [hsame]

theorem skip (h : s.HasLine line) (hbuckets : s.buckets = (weight, v :: vs) :: rest)
    (hv : s.weight? v ≠ some weight) :
    Picking.HasLine { s with buckets := (weight, vs) :: rest } line := by
  have hsorted := List.pairwise_cons.mp (hbuckets ▸ h.sorted)
  refine h.shrink (List.pairwise_cons.mpr hsorted) (fun w => ?_) fun w => ?_
  · rw [hbuckets, bucketAt_cons, bucketAt_cons]
    split
    next => exact List.subset_cons_self v vs
    next => exact List.Subset.refl _
  · rw [hbuckets, bucketAt_cons, bucketAt_cons]
    split
    next hw => rw [List.filter_cons_of_neg (by simpa [hw] using hv)]
    next => rfl

/-- The first current entry of the first bucket is the first one of the lightest vertices. -/
theorem argmin_eq (h : s.HasLine line) (hbuckets : s.buckets = (weight, v :: vs) :: rest)
    (hv : s.weight? v = some weight) : line.argmin (·.2) = some (v, weight) := by
  have hsorted := List.pairwise_cons.mp (hbuckets ▸ h.sorted)
  refine argmin_eq_of_head?_filter (w := weight) (fun e he => ?_) ?_
  · have hmem : e.1 ∈ bucketAt e.2 s.buckets := by
      have hqueued : e.1 ∈ (line.filter (·.2 = e.2)).map (·.1) :=
        List.mem_map_of_mem (List.mem_filter.mpr ⟨he, decide_eq_true rfl⟩)
      exact (List.mem_filter.mp (h.queued e.2 ▸ hqueued)).1
    obtain ⟨us, hus⟩ := exists_of_mem_bucketAt hmem
    rw [hbuckets] at hus
    rcases List.mem_cons.mp hus with heq | hus
    · exact Nat.le_of_eq (congrArg Prod.fst heq).symm
    · exact Nat.le_of_lt (hsorted.1 _ hus)
  · have hqueued := h.queued weight
    rw [hbuckets, bucketAt_cons, if_pos rfl, List.filter_cons_of_pos (by simpa using hv)] at hqueued
    cases hline : line.filter (·.2 = weight) with
    | nil => rw [hline] at hqueued; cases hqueued
    | cons e others =>
        rw [hline] at hqueued
        have he : e.2 = weight := of_decide_eq_true (List.mem_filter.mp
          (hline ▸ List.mem_cons_self : e ∈ line.filter (·.2 = weight))).2
        exact congrArg some (Prod.ext (List.cons.inj hqueued).1.symm he)

/-- The other vertices of a bucket stand in the order in which they wait. -/
theorem queued_others (h : s.HasLine line) (v w : Nat) :
    (bucketAt w s.buckets).filter (fun u => u ≠ v ∧ s.weight? u = some w) =
      ((line.filter (·.1 ≠ v)).filter (·.2 = w)).map (·.1) := by
  have hqueued := congrArg (List.filter (· ≠ v)) (h.queued w)
  rw [List.filter_filter, List.filter_map, List.filter_comm] at hqueued
  simpa using hqueued

theorem take (h : s.HasLine line) (hbuckets : s.buckets = (weight, v :: vs) :: rest) :
    (Picking.take { s with buckets := (weight, vs) :: rest } v).HasLine
      (line.filter (·.1 ≠ v)) where
  nodup := h.nodup.sublist (List.filter_sublist.map _)
  mem u k := by
    rw [List.mem_filter, h.mem, weight?_take]
    split
    next hu => simp [hu]
    next hu => simp [hu]; rfl
  sorted := List.pairwise_cons.mpr (List.pairwise_cons.mp (hbuckets ▸ h.sorted))
  light w u hu k hk := by
    rw [weight?_take] at hk
    split at hk
    next => cases hk
    next =>
      refine h.light w u ?_ k hk
      change u ∈ bucketAt w ((weight, vs) :: rest) at hu
      rw [bucketAt_cons] at hu
      rw [hbuckets, bucketAt_cons]
      split at hu
      next hw => exact if_pos hw ▸ List.mem_cons_of_mem v hu
      next hw => exact if_neg hw ▸ hu
  queued w := by
    have hothers := h.queued_others v w
    rw [hbuckets, bucketAt_cons] at hothers
    rw [← hothers]
    change (bucketAt w ((weight, vs) :: rest)).filter _ = _
    rw [bucketAt_cons]
    have hweight : ∀ u,
        decide ((Picking.take { s with buckets := (weight, vs) :: rest } v).weight? u = some w) =
          decide (u ≠ v ∧ s.weight? u = some w) := by
      intro u
      rw [weight?_take, decide_eq_decide]
      split
      next hu => simp [hu]
      next hu => simp [hu]; rfl
    simp only [hweight]
    split
    next => rw [List.filter_cons_of_neg (by simp)]
    next => rfl

theorem filter_fst_eq (hnodup : (line.map (·.1)).Nodup) (h : (v, k) ∈ line) :
    line.filter (·.1 = v) = [(v, k)] := by
  induction line with
  | nil => cases h
  | cons e line ih =>
      rw [List.map_cons, List.nodup_cons] at hnodup
      rcases List.mem_cons.mp h with rfl | h
      · rw [List.filter_cons_of_pos (by simp), List.filter_eq_nil_iff.mpr]
        intro e he hv
        exact hnodup.1 (List.mem_map.mpr ⟨e, he, of_decide_eq_true hv⟩)
      · have hne : e.1 ≠ v := fun he => hnodup.1 (List.mem_map.mpr ⟨(v, k), h, he.symm⟩)
        rw [List.filter_cons_of_neg (by simpa using hne), ih hnodup.2 h]

theorem requeue_of_none (h : s.HasLine line) (hnone : s.weight? edge.1 = none) :
    requeue line edge = line := by
  have hne : ∀ e ∈ line, e.1 ≠ edge.1 := by
    intro e he heq
    have hsome := (h.mem e.1 e.2).mp he
    rw [heq, hnone] at hsome
    cases hsome
  rw [requeue]
  split
  next => rfl
  next =>
    rw [List.filter_eq_self.mpr fun e he => decide_eq_true (hne e he),
      List.filter_eq_nil_iff.mpr fun e he => by simpa using hne e he]
    exact List.append_nil line

theorem weight?_release_eq_some : (s.release edge).weight? v = some w ↔
    ∃ k, s.weight? v = some k ∧ w = if v = edge.1 then k - edge.2 % lateWeight else k := by
  rw [weight?_release]
  split
  · simp [eq_comm]
  · simp

theorem le_of_weight?_release (hk : s.weight? v = some k)
    (hw : (s.release edge).weight? v = some w) : w ≤ k := by
  obtain ⟨k', hk', rfl⟩ := weight?_release_eq_some.mp hw
  obtain rfl := Option.some.inj (hk.symm.trans hk')
  split <;> omega

/-- The target of an edge stands at the end of the bucket of its new weight. -/
theorem queued_release (h : s.HasLine line) (hk : s.weight? edge.1 = some k)
    (hle : edge.2 % lateWeight ≤ k) (hpos : edge.2 % lateWeight ≠ 0) (w : Nat) :
    (bucketAt w (file (k - edge.2 % lateWeight) edge.1 s.buckets)).filter
        ((s.release edge).weight? · = some w) =
      ((requeue line edge).filter (·.2 = w)).map (·.1) := by
  have hstay : ∀ u ∈ bucketAt w s.buckets,
      decide ((s.release edge).weight? u = some w) =
        decide (u ≠ edge.1 ∧ s.weight? u = some w) := by
    intro u hu
    rw [decide_eq_decide, weight?_release_eq_some]
    by_cases hut : u = edge.1
    · -- Older entries of the target stand in buckets of more weight.
      have hold : k ≤ w := h.light w u hu k (hut ▸ hk)
      refine iff_of_false ?_ fun hand => hand.1 hut
      rintro ⟨k', hk', hw⟩
      obtain rfl := Option.some.inj (hk.symm.trans (hut ▸ hk'))
      rw [if_pos hut] at hw
      omega
    · simp [hut]
  have htarget : line.filter (·.1 = edge.1) = [(edge.1, k)] :=
    filter_fst_eq h.nodup ((h.mem _ _).mpr hk)
  have hnew : (s.release edge).weight? edge.1 = some (k - edge.2 % lateWeight) :=
    weight?_release_eq_some.mpr ⟨k, hk, (if_pos rfl).symm⟩
  rw [bucketAt_file h.sorted, List.filter_append, List.filter_congr hstay, h.queued_others, requeue,
    if_neg hpos, htarget, List.filter_append, List.map_append]
  refine congrArg _ ?_
  have htaken : lightened edge (edge.1, k) = (edge.1, k - edge.2 % lateWeight) := if_pos rfl
  rw [lighten, List.map_singleton, htaken]
  by_cases hw : w = k - edge.2 % lateWeight
  · rw [if_pos hw, List.filter_cons_of_pos (by simp [hnew, hw]),
      List.filter_cons_of_pos (by simp [hw])]
    rfl
  · rw [if_neg hw, List.filter_cons_of_neg (by simpa using Ne.symm hw)]
    rfl

theorem release (h : s.HasLine line)
    (hfits : ∀ k, s.weight? edge.1 = some k → edge.2 % lateWeight ≤ k) :
    (s.release edge).HasLine (requeue line edge) := by
  cases hk : s.weight? edge.1 with
  | none =>
      have hsame : s.release edge = s := release_of_none hk
      rw [h.requeue_of_none hk, hsame]
      exact h
  | some k =>
      by_cases hpos : edge.2 % lateWeight = 0
      · have hsame : s.release edge = s := (release_of_some hk).trans (if_pos hpos)
        rw [requeue, if_pos hpos, hsame]
        exact h
      have hbuckets : (s.release edge).buckets =
          file (k - edge.2 % lateWeight) edge.1 s.buckets :=
        congrArg Picking.buckets ((release_of_some hk).trans (if_neg hpos))
      refine ⟨?_, fun u w => ?_, ?_, fun w u hu n hn => ?_, fun w => ?_⟩
      · rw [(perm_requeue.map _).nodup_iff, map_fst_lighten]
        exact h.nodup
      · rw [perm_requeue.mem_iff, mem_lighten, weight?_release_eq_some]
        simp only [h.mem]
      · rw [hbuckets]
        exact pairwise_file h.sorted
      · obtain ⟨n', hn', hle⟩ := weight?_release_eq_some.mp hn
        rw [hbuckets, bucketAt_file h.sorted, List.mem_append] at hu
        rcases hu with hu | hu
        · exact Nat.le_trans (le_of_weight?_release hn' hn) (h.light w u hu n' hn')
        · split at hu
          next hw =>
            obtain rfl := List.mem_singleton.mp hu
            obtain rfl := Option.some.inj (hk.symm.trans hn')
            rw [hle, if_pos rfl, hw]
          next => cases hu
      · rw [hbuckets]
        exact h.queued_release hk (hfits k hk) hpos w

theorem releases {left : List (Nat × Nat)} {bound : Nat → Nat} (h : s.HasLine line)
    (hcover : s.IsCovered edges bound left) :
    (left.foldl Picking.release s).HasLine (left.foldl requeue line) := by
  induction left generalizing s line with
  | nil => exact h
  | cons edge left ih =>
      refine ih (h.release fun k hk => ?_) hcover.release
      exact Nat.le_trans (Nat.le_add_left _ _) (hcover.amount_le hk)

theorem eq_nil (h : s.HasLine line) (hbuckets : s.buckets = []) : line = [] := by
  refine List.eq_nil_iff_forall_not_mem.mpr fun e he => ?_
  have hqueued := h.queued e.2
  rw [hbuckets] at hqueued
  have hmem : e.1 ∈ (line.filter (·.2 = e.2)).map (·.1) :=
    List.mem_map_of_mem (List.mem_filter.mpr ⟨he, decide_eq_true rfl⟩)
  rw [← hqueued] at hmem
  cases hmem

end HasLine

/-- What was picked, followed by what is picked greedily among the vertices in line, is the whole
order. -/
def Completes (edges : WeightedEdges) (order : List Nat) (s : Picking) : Prop :=
  s.IsCovered edges (fun _ => 0) [] ∧ ∃ line n, s.HasLine line ∧ line.length ≤ n ∧
    order = s.picked.reverse ++ greedy requeue edges n line

theorem picked_pick : (s.pick edges v).picked = v :: s.picked := by
  have hfold : ∀ (targets : List (Nat × Nat)) (s : Picking),
      (targets.foldl release s).picked = s.picked := by
    intro targets
    induction targets with
    | nil => exact fun _ => rfl
    | cons edge targets ih => exact fun s => (ih _).trans (picked_release edge)
  exact hfold _ _

theorem Completes.pick {order : List Nat} (h : s.Completes edges order)
    (hbuckets : s.buckets = (weight, v :: vs) :: rest) (hcurrent : s.isCurrent weight v = true) :
    (Picking.pick edges { s with buckets := (weight, vs) :: rest } v).Completes edges order := by
  obtain ⟨hcover, line, n, hline, hn, horder⟩ := h
  obtain ⟨k, hk, hle⟩ := isCurrent_iff.mp hcurrent
  have hfirst : v ∈ bucketAt weight s.buckets := by
    rw [hbuckets, bucketAt_cons, if_pos rfl]
    exact List.mem_cons_self
  obtain rfl : k = weight := Nat.le_antisymm (hline.light weight v hfirst k hk) hle
  have hargmin := hline.argmin_eq hbuckets hk
  have hlength : (leave requeue edges v line).length < line.length :=
    length_leave_lt ((hline.mem v k).mpr hk)
  have htake : Picking.IsCovered edges (fun _ => 0) (edges.getD v [])
      (Picking.take { s with buckets := (k, vs) :: rest } v) :=
    IsCovered.take ⟨hcover.size, hcover.le⟩ hk
  refine ⟨htake.releases, leave requeue edges v line, n - 1, (hline.take hbuckets).releases htake,
    by omega, ?_⟩
  obtain ⟨n, rfl⟩ : ∃ m, n = m + 1 := ⟨n - 1, by omega⟩
  rw [horder, picked_pick, greedy, hargmin, List.reverse_cons, List.append_assoc]
  rfl

/-- A run ends with the whole order. -/
theorem Completes.run {order : List Nat} {fuel : Nat} (h : s.Completes edges order)
    (hend : (run edges fuel s).buckets = []) : (run edges fuel s).picked.reverse = order := by
  have hcompletes : (Picking.run edges fuel s).Completes edges order := by
    refine run_induction ?_ ?_ ?_ h
    · rintro s weight rest ⟨hcover, line, n, hline, hn, horder⟩ hbuckets
      exact ⟨⟨hcover.size, hcover.le⟩, line, n, hline.drop hbuckets, hn, horder⟩
    · rintro s weight v vs rest ⟨hcover, line, n, hline, hn, horder⟩ hbuckets hcurrent
      exact ⟨⟨hcover.size, hcover.le⟩, line, n,
        hline.skip hbuckets (ne_of_not_isCurrent hcurrent), hn, horder⟩
    · exact fun s weight v vs rest h hbuckets hcurrent => h.pick hbuckets hcurrent
  obtain ⟨-, line, n, hline, -, horder⟩ := hcompletes
  rw [horder, hline.eq_nil hend, greedy_nil, List.append_nil]

end Picking

open Picking

/-! ### Orders -/

theorem map_fst_waiting (edges : WeightedEdges) :
    edges.waiting.map (·.1) = List.range edges.size := by
  rw [waiting, List.map_map]
  exact List.map_id _

theorem mem_waiting : (v, w) ∈ edges.waiting ↔ edges.start.weight? v = some w := by
  rw [weight?_start, waiting, List.mem_map]
  constructor
  · rintro ⟨u, hu, he⟩
    obtain ⟨rfl, rfl⟩ := Prod.mk.inj he
    exact if_pos (List.mem_range.mp hu)
  · intro h
    split at h
    next hv => exact ⟨v, List.mem_range.mpr hv, congrArg (Prod.mk v) (Option.some.inj h)⟩
    next => cases h

theorem incoming_zipIdx (edges : WeightedEdges) :
    edges.incoming.toList.zipIdx = edges.waiting.map Prod.swap := by
  refine List.ext_getElem? fun i => ?_
  rw [List.getElem?_zipIdx, Array.getElem?_toList, getElem?_incoming, waiting, List.map_map,
    List.getElem?_map]
  by_cases hi : i < edges.size
  · simp [hi]
  · simp [hi]

/-- At first, the vertices stand in the buckets by position. -/
theorem bucketAt_start (edges : WeightedEdges) (w : Nat) :
    bucketAt w edges.start.buckets = (edges.waiting.filter (·.2 = w)).map (·.1) := by
  refine (bucketAt_foldl_file _ _ .nil).trans ?_
  rw [incoming_zipIdx, List.filter_map, List.map_map]
  rfl

theorem hasLine_start (edges : WeightedEdges) : edges.start.HasLine edges.waiting where
  nodup := map_fst_waiting edges ▸ List.nodup_range
  mem _ _ := mem_waiting
  sorted := pairwise_foldl_file _ _ .nil
  light w v hv k hk := by
    rw [bucketAt_start] at hv
    obtain ⟨⟨u, n⟩, he, rfl⟩ := List.mem_map.mp hv
    obtain ⟨hmem, hn⟩ := List.mem_filter.mp he
    obtain rfl := Option.some.inj (hk.symm.trans (mem_waiting.mp hmem))
    exact Nat.le_of_eq (of_decide_eq_true hn)
  queued w := by
    rw [bucketAt_start, List.filter_eq_self]
    intro v hv
    obtain ⟨⟨u, n⟩, he, rfl⟩ := List.mem_map.mp hv
    obtain ⟨hmem, hn⟩ := List.mem_filter.mp he
    rw [mem_waiting.mp hmem]
    exact decide_eq_true (congrArg some (of_decide_eq_true hn))

theorem order_eq_greedyOrder (edges : WeightedEdges) :
    edges.order = edges.greedyOrder requeue := by
  have hcover : edges.start.IsCovered edges (fun _ => 0) [] :=
    isCovered_start fun v _ => le_of_eq_of_le (Nat.zero_add _) (totalTo_mod_le _)
  have hcompletes : edges.start.Completes edges (edges.greedyOrder requeue) :=
    ⟨hcover, edges.waiting, edges.size, hasLine_start edges, by simp [waiting], rfl⟩
  exact hcompletes.run (run_spec (isChoice_start edges) (remaining_start_le edges)).2

/-- In a line by position, the first one of the lightest vertices has the least position. -/
theorem le_of_argmin_eq {m : Nat × Nat} (hsorted : line.Pairwise (·.1 < ·.1))
    (hm : line.argmin (·.2) = some m) (he : e ∈ line) (hweight : e.2 = m.2) : m.1 ≤ e.1 := by
  induction line generalizing m with
  | nil => cases he
  | cons a line ih =>
      obtain ⟨hfirst, hrest⟩ := List.pairwise_cons.mp hsorted
      have hle : a.1 ≤ e.1 := by
        rcases List.mem_cons.mp he with rfl | he
        · exact Nat.le_refl _
        · exact Nat.le_of_lt (hfirst e he)
      rw [List.argmin_cons] at hm
      cases hc : line.argmin (·.2) with
      | none =>
          rw [hc] at hm
          obtain rfl := Option.some.inj hm
          exact hle
      | some c =>
          rw [hc] at hm
          dsimp only at hm
          split at hm
          next hlt =>
            obtain rfl := Option.some.inj hm
            rcases List.mem_cons.mp he with rfl | he
            · omega
            · exact ih hrest hc he hweight
          next =>
            obtain rfl := Option.some.inj hm
            exact hle

/-- The greedy orders are the same only as long as ties are broken by position. -/
theorem greedy_eq_iff_followsPositions (hperm : line.Perm line')
    (hsorted : line'.Pairwise (·.1 < ·.1)) :
    greedy requeue edges n line = greedy lighten edges n line' ↔ FollowsPositions edges n line := by
  induction n generalizing line line' with
  | zero => exact iff_of_true rfl trivial
  | succ n ih =>
      rw [greedy, greedy, FollowsPositions]
      cases hm : line.argmin (·.2) with
      | none =>
          obtain rfl := List.argmin_eq_none.mp hm
          obtain rfl := hperm.nil_eq
          exact iff_of_true rfl trivial
      | some m =>
          obtain ⟨m', hm'⟩ : ∃ m', line'.argmin (·.2) = some m' := by
            refine Option.ne_none_iff_exists'.mp fun hnone => ?_
            rw [List.argmin_eq_none.mp hnone] at hperm
            rw [hperm.eq_nil] at hm
            cases hm
          have hmem : m ∈ line' := hperm.mem_iff.mp (List.argmin_mem hm)
          have hmem' : m' ∈ line := hperm.mem_iff.mpr (List.argmin_mem hm')
          have hweight : m.2 = m'.2 :=
            Nat.le_antisymm (List.le_of_mem_argmin hmem' hm) (List.le_of_mem_argmin hmem hm')
          have hrest : ((leave lighten edges m.1 line').map (·.1)).Pairwise (· < ·) :=
            map_fst_leave_lighten ▸ (List.pairwise_map.mpr hsorted).filter _
          have hleave : (leave requeue edges m.1 line).Perm (leave lighten edges m.1 line') :=
            perm_leave hperm
          have ih := ih hleave (List.pairwise_map.mp hrest)
          rw [hm']
          constructor
          · intro heq
            obtain ⟨hfirst, htail⟩ := List.cons.inj heq
            refine ⟨fun e he hw => ?_, ih.mp (hfirst ▸ htail)⟩
            exact hfirst ▸ le_of_argmin_eq hsorted hm' (hperm.mem_iff.mp he) (hw.trans hweight)
          · rintro ⟨hties, htail⟩
            have hfirst : m.1 = m'.1 := Nat.le_antisymm (hties m' hmem' hweight.symm)
              (le_of_argmin_eq hsorted hm' hmem hweight)
            exact congrArg₂ List.cons hfirst (hfirst ▸ ih.mpr htail)

/-- The order is the greedy one in which the first vertex of a line is picked among equally light
ones, where a vertex that becomes lighter goes to the end of the line. Ties are broken by position
if and only if no vertex overtakes an equally light one in this way. -/
theorem order_breaks_ties_by_seniority (edges : WeightedEdges) :
    edges.order = edges.greedyOrder requeue ∧
      (edges.order = edges.greedyOrder lighten ↔
        edges.FollowsPositions edges.size edges.waiting) := by
  refine ⟨order_eq_greedyOrder edges, ?_⟩
  rw [order_eq_greedyOrder]
  have hsorted : (edges.waiting.map (·.1)).Pairwise (· < ·) :=
    map_fst_waiting edges ▸ List.pairwise_lt_range
  exact greedy_eq_iff_followsPositions (.refl _) (List.pairwise_map.mp hsorted)

section Overtaking

/-- The last vertex has the weight 2 from the start, and the one before has it when the first one is
picked. -/
private def overtaking : WeightedEdges := #[[(1, 1)], [(2, 2)], [(0, 1), (1, 2)]]

example : overtaking.order = [0, 2, 1] := by decide +kernel

example : overtaking.greedyOrder lighten = [0, 1, 2] := by decide +kernel

end Overtaking

end WeightedEdges
end Graph
end FinitePlanning
