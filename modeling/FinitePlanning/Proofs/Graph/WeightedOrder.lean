import FinitePlanning.Graph.WeightedOrder
import FinitePlanning.Proofs.Collections

/-!
The order of a weighted graph lists each vertex once. A vertex that is not picked yet stands in the
bucket of its weight, and each step of the choice takes an entry out of the buckets, or uses up the
edges of a vertex for new entries.
-/

namespace FinitePlanning
namespace Graph
namespace WeightedEdges
namespace Picking

variable {edges : WeightedEdges} {s : Picking} {buckets : List (Nat × List Nat)}
  {u v w k weight amount : Nat}

/-- A vertex stands in the bucket of a weight. -/
def IsFiled (w v : Nat) (buckets : List (Nat × List Nat)) : Prop :=
  ∃ vs, (w, vs) ∈ buckets ∧ v ∈ vs

theorem isFiled_cons {vs : List Nat} :
    IsFiled w v ((k, vs) :: buckets) ↔ w = k ∧ v ∈ vs ∨ IsFiled w v buckets := by
  simp only [IsFiled, List.mem_cons, Prod.mk.injEq]
  constructor
  · rintro ⟨us, ⟨rfl, rfl⟩ | hmem, hv⟩
    · exact .inl ⟨rfl, hv⟩
    · exact .inr ⟨us, hmem, hv⟩
  · rintro (⟨rfl, hv⟩ | ⟨us, hmem, hv⟩)
    · exact ⟨vs, .inl ⟨rfl, rfl⟩, hv⟩
    · exact ⟨us, .inr hmem, hv⟩

theorem isFiled_file :
    IsFiled w v (file weight u buckets) ↔ w = weight ∧ v = u ∨ IsFiled w v buckets := by
  induction buckets with
  | nil =>
      rw [file, isFiled_cons, List.mem_singleton]
  | cons bucket rest ih =>
      obtain ⟨k, vs⟩ := bucket
      rw [file]
      split
      next => rw [isFiled_cons, List.mem_singleton]
      next =>
        split
        next heq =>
          subst heq
          rw [isFiled_cons, isFiled_cons, List.mem_append, List.mem_singleton]
          tauto
        next => rw [isFiled_cons, isFiled_cons, ih, or_left_comm]

/-- The number of steps that it takes to empty buckets. -/
def load (buckets : List (Nat × List Nat)) : Nat :=
  total (buckets.map fun bucket => bucket.2.length + 1)

theorem load_file_le : load (file weight v buckets) ≤ load buckets + 2 := by
  induction buckets with
  | nil => exact Nat.le_refl 2
  | cons bucket rest ih =>
      obtain ⟨k, vs⟩ := bucket
      rw [file]
      split
      next => simp only [load, List.map_cons, total_cons, List.length_singleton]; omega
      next =>
        split
        next => simp only [load, List.map_cons, total_cons, List.length_append,
          List.length_singleton]; omega
        next =>
          simp only [load, List.map_cons, total_cons] at ih ⊢
          omega

/-- The weight of a vertex that is not picked. -/
def weight? (s : Picking) (v : Nat) : Option Nat :=
  s.weights.getD v none

/-- The number of edges from vertices that are not picked. -/
def pendingEdges (edges : WeightedEdges) (s : Picking) : Nat :=
  total ((List.range edges.size).map fun v =>
    if (s.weight? v).isSome then (edges.getD v []).length else 0)

/-- Each vertex is picked once, or stands in the bucket of its weight. -/
structure IsChoice (edges : WeightedEdges) (s : Picking) : Prop where
  size : s.weights.size = edges.size
  nodup : s.picked.Nodup
  mem : ∀ v, v ∈ s.picked ↔ v < edges.size ∧ s.weight? v = none
  filed : ∀ v w, s.weight? v = some w → IsFiled w v s.buckets

/-- A bound on the number of steps of the choice. -/
def remaining (edges : WeightedEdges) (s : Picking) : Nat :=
  load s.buckets + 2 * s.pendingEdges edges

theorem getD_set {ws : Array (Option Nat)} {x : Option Nat} (hv : v < ws.size) :
    (ws.setIfInBounds v x).getD u none = if u = v then x else ws.getD u none := by
  by_cases hu : u = v
  · subst hu
    simp [hv]
  · simp [Array.getD_eq_getD_getElem?, Ne.symm hu, hu]

theorem lt_of_weight? (h : s.weight? v = some w) : v < s.weights.size := by
  by_cases hv : v < s.weights.size
  · exact hv
  · simp [weight?, hv] at h

theorem release_of_none (h : s.weight? w = none) : s.release (w, amount) = s := by
  rw [weight?] at h
  rw [release, h]

theorem release_of_some (h : s.weight? w = some k) : s.release (w, amount) =
    if amount % lateWeight = 0 then s
    else { s with
      weights := s.weights.setIfInBounds w (some (k - amount % lateWeight))
      buckets := file (k - amount % lateWeight) w s.buckets } := by
  rw [weight?] at h
  rw [release, h]

theorem weight?_release : (s.release (w, amount)).weight? v =
    if v = w then (s.weight? v).map (· - amount % lateWeight) else s.weight? v := by
  cases hw : s.weight? w with
  | none =>
      rw [release_of_none hw]
      split
      next hv => rw [hv, hw, Option.map_none]
      next => rfl
  | some k =>
      rw [release_of_some hw]
      split
      next hzero =>
        split
        next hv => rw [hv, hw, hzero, Option.map_some, Nat.sub_zero]
        next => rfl
      next =>
        refine (getD_set (lt_of_weight? hw)).trans ?_
        split
        next hv => rw [hv, hw, Option.map_some]
        next => rfl

theorem weight?_release_eq_none {edge : Nat × Nat} :
    (s.release edge).weight? v = none ↔ s.weight? v = none := by
  rw [weight?_release]
  split
  · exact Option.map_eq_none_iff
  · rfl

/-- If an edge changes anything, it puts its target into the bucket of its new weight. -/
theorem release_cases (s : Picking) (edge : Nat × Nat) : s.release edge = s ∨
    ∃ lighter, (s.release edge).weight? edge.1 = some lighter ∧
      (s.release edge).buckets = file lighter edge.1 s.buckets := by
  obtain ⟨w, amount⟩ := edge
  cases hw : s.weight? w with
  | none => exact .inl (release_of_none hw)
  | some k =>
      refine or_iff_not_imp_left.mpr fun hchanged => ⟨k - amount % lateWeight, ?_, ?_⟩
      · rw [weight?_release, if_pos rfl, hw, Option.map_some]
      · rw [release_of_some hw] at hchanged ⊢
        split at hchanged
        next => exact absurd rfl hchanged
        next hzero => rw [if_neg hzero]

theorem picked_release (edge : Nat × Nat) : (s.release edge).picked = s.picked := by
  obtain ⟨w, amount⟩ := edge
  cases hw : s.weight? w with
  | none => rw [release_of_none hw]
  | some k =>
      rw [release_of_some hw]
      split
      next => rfl
      next => rfl

theorem size_release (edge : Nat × Nat) : (s.release edge).weights.size = s.weights.size := by
  obtain ⟨w, amount⟩ := edge
  cases hw : s.weight? w with
  | none => rw [release_of_none hw]
  | some k =>
      rw [release_of_some hw]
      split
      next => rfl
      next => exact Array.size_setIfInBounds

/-- The state in which a vertex is picked and its edges are still to be dealt with. -/
def take (s : Picking) (v : Nat) : Picking :=
  { s with weights := s.weights.setIfInBounds v none, picked := v :: s.picked }

theorem weight?_take : (s.take v).weight? u = if u = v then none else s.weight? u := by
  by_cases hv : v < s.weights.size
  · exact getD_set hv
  · rw [take, weight?, weight?]
    split
    next hu => simp [hu, hv]
    next hu => simp [Array.getD_eq_getD_getElem?, Ne.symm hu]

/-- The total cost of the edges from vertices that are not picked, by a cost of the edges from each
vertex. -/
def pendingTotal (edges : WeightedEdges) (cost : List (Nat × Nat) → Nat) (s : Picking) : Nat :=
  total ((List.range edges.size).map fun v =>
    if (s.weight? v).isSome then cost (edges.getD v []) else 0)

theorem pendingTotal_release (cost : List (Nat × Nat) → Nat) (edge : Nat × Nat) :
    (s.release edge).pendingTotal edges cost = s.pendingTotal edges cost := by
  refine congrArg total (List.map_congr_left fun v _ => if_congr ?_ rfl rfl)
  rw [Option.isSome_iff_ne_none, Option.isSome_iff_ne_none]
  exact not_congr weight?_release_eq_none

/-- Changing one summand changes the total by it. -/
theorem total_map_congr {l : List Nat} {f g : Nat → Nat} (hn : l.Nodup) (hv : v ∈ l)
    (h : ∀ u ∈ l, u ≠ v → f u = g u) : total (l.map f) + g v = total (l.map g) + f v := by
  induction l with
  | nil => cases hv
  | cons u l ih =>
      rw [List.nodup_cons] at hn
      simp only [List.map_cons, total_cons]
      rcases List.mem_cons.mp hv with rfl | hv
      · have hrest : l.map f = l.map g := List.map_congr_left fun u hu =>
          h u (List.mem_cons_of_mem v hu) fun he => hn.1 (he ▸ hu)
        rw [hrest]
        omega
      · have ih := ih hn.2 hv fun w hw => h w (List.mem_cons_of_mem u hw)
        have hu : f u = g u := h u List.mem_cons_self fun he => hn.1 (he ▸ hv)
        omega

theorem pendingTotal_take (cost : List (Nat × Nat) → Nat) (hv : v < edges.size)
    (h : s.weight? v = some k) :
    (s.take v).pendingTotal edges cost + cost (edges.getD v []) = s.pendingTotal edges cost := by
  have htotal := total_map_congr
    (f := fun u => if (s.weight? u).isSome then cost (edges.getD u []) else 0)
    (g := fun u => if ((s.take v).weight? u).isSome then cost (edges.getD u []) else 0)
    List.nodup_range (List.mem_range.mpr hv) fun u _ hu => by rw [weight?_take, if_neg hu]
  simp only [weight?_take, h, Option.isSome_some, Option.isSome_none, if_true, if_false,
    Bool.false_eq_true, Nat.add_zero] at htotal
  rw [pendingTotal, pendingTotal, htotal]
  simp only [weight?_take]

/-- Taking the weight of an edge off its target. -/
theorem release_spec (h : s.IsChoice edges) (edge : Nat × Nat) :
    (s.release edge).IsChoice edges ∧
      (s.release edge).pendingEdges edges = s.pendingEdges edges ∧
        load (s.release edge).buckets ≤ load s.buckets + 2 := by
  refine ⟨⟨(size_release edge).trans h.size, picked_release (s := s) edge ▸ h.nodup, fun u => ?_,
    fun u n hn => ?_⟩, pendingTotal_release List.length edge, ?_⟩
  · rw [picked_release, weight?_release_eq_none]
    exact h.mem u
  · rcases release_cases s edge with hsame | ⟨lighter, hlighter, hbuckets⟩
    · rw [hsame] at hn ⊢
      exact h.filed u n hn
    · rw [hbuckets, isFiled_file]
      by_cases hu : u = edge.1
      · rw [hu, hlighter] at hn
        exact .inl ⟨(Option.some.inj hn).symm, hu⟩
      · rw [weight?_release, if_neg hu] at hn
        exact .inr (h.filed u n hn)
  · rcases release_cases s edge with hsame | ⟨lighter, -, hbuckets⟩
    · rw [hsame]
      exact Nat.le_add_right _ 2
    · rw [hbuckets]
      exact load_file_le

theorem releases_spec (h : s.IsChoice edges) (targets : List (Nat × Nat)) :
    (targets.foldl release s).IsChoice edges ∧
      (targets.foldl release s).remaining edges ≤ s.remaining edges + 2 * targets.length := by
  induction targets generalizing s with
  | nil => exact ⟨h, Nat.le_refl _⟩
  | cons edge targets ih =>
      obtain ⟨hchoice, hpending, hload⟩ := release_spec h edge
      obtain ⟨hend, hle⟩ := ih hchoice
      refine ⟨hend, Nat.le_trans hle ?_⟩
      rw [remaining, remaining, hpending, List.length_cons]
      omega

theorem IsChoice.take (h : s.IsChoice edges) (hv : s.weight? v = some k) {vs : List Nat}
    {rest : List (Nat × List Nat)} (hbuckets : s.buckets = (weight, v :: vs) :: rest) :
    (Picking.take { s with buckets := (weight, vs) :: rest } v).IsChoice edges where
  size := Array.size_setIfInBounds.trans h.size
  nodup := by
    refine List.nodup_cons.mpr ⟨fun hmem => ?_, h.nodup⟩
    rw [((h.mem v).mp hmem).2] at hv
    cases hv
  mem u := by
    rw [weight?_take]
    refine List.mem_cons.trans ?_
    by_cases hu : u = v
    · exact iff_of_true (.inl hu) ⟨hu ▸ h.size ▸ lt_of_weight? hv, if_pos hu⟩
    · rw [if_neg hu, or_iff_right hu]
      exact h.mem u
  filed u n hn := by
    rw [weight?_take] at hn
    split at hn
    next => cases hn
    next hu =>
      have hfiled := h.filed u n hn
      rw [hbuckets, isFiled_cons, List.mem_cons, or_iff_right hu] at hfiled
      exact isFiled_cons.mpr hfiled

/-- Picking the first vertex of the first bucket. -/
theorem pick_spec (h : s.IsChoice edges) {vs : List Nat} {rest : List (Nat × List Nat)}
    (hbuckets : s.buckets = (weight, v :: vs) :: rest) (hv : (s.weight? v).isSome = true) :
    (Picking.pick edges { s with buckets := (weight, vs) :: rest } v).IsChoice edges ∧
      (Picking.pick edges { s with buckets := (weight, vs) :: rest } v).remaining edges <
        s.remaining edges := by
  obtain ⟨k, hk⟩ := Option.isSome_iff_exists.mp hv
  obtain ⟨hchoice, hle⟩ := releases_spec (h.take hk hbuckets) (edges.getD v [])
  refine ⟨hchoice, Nat.lt_of_le_of_lt hle ?_⟩
  have hpending : s.pendingEdges edges =
      (s.take v).pendingEdges edges + (edges.getD v []).length :=
    (pendingTotal_take List.length (h.size ▸ lt_of_weight? hk) hk).symm
  have hload : load s.buckets = load ((weight, vs) :: rest) + 1 := by
    rw [hbuckets]
    simp only [load, List.map_cons, total_cons, List.length_cons]
    omega
  change load ((weight, vs) :: rest) + 2 * (s.take v).pendingEdges edges +
    2 * (edges.getD v []).length < load s.buckets + 2 * s.pendingEdges edges
  omega

/-- An empty bucket is dropped. -/
theorem drop_spec (h : s.IsChoice edges) {rest : List (Nat × List Nat)}
    (hbuckets : s.buckets = (weight, []) :: rest) :
    Picking.IsChoice edges { s with buckets := rest } where
  size := h.size
  nodup := h.nodup
  mem := h.mem
  filed u n hn := by
    have hfiled := h.filed u n hn
    rw [hbuckets, isFiled_cons] at hfiled
    exact hfiled.resolve_left fun hu => List.not_mem_nil hu.2

theorem isCurrent_iff : s.isCurrent weight v = true ↔ ∃ k, s.weight? v = some k ∧ weight ≤ k := by
  change (s.weight? v).any (weight ≤ ·) = true ↔ _
  cases s.weight? v with
  | none => simp
  | some k => simp

theorem ne_of_not_isCurrent (h : s.isCurrent weight v = false) : s.weight? v ≠ some weight := by
  intro hv
  rw [isCurrent_iff.mpr ⟨weight, hv, Nat.le_refl weight⟩] at h
  cases h

/-- An entry of a vertex that is picked, or was put into another bucket since, is passed over. -/
theorem skip_spec (h : s.IsChoice edges) {vs : List Nat} {rest : List (Nat × List Nat)}
    (hbuckets : s.buckets = (weight, v :: vs) :: rest) (hv : s.weight? v ≠ some weight) :
    Picking.IsChoice edges { s with buckets := (weight, vs) :: rest } where
  size := h.size
  nodup := h.nodup
  mem := h.mem
  filed u w hw := by
    have hfiled := h.filed u w hw
    rw [hbuckets, isFiled_cons, List.mem_cons] at hfiled
    refine isFiled_cons.mpr (hfiled.imp_left fun ⟨hweight, hu⟩ => ⟨hweight, hu.resolve_left ?_⟩)
    rintro rfl
    exact hv (hweight ▸ hw)

/-- With enough steps the choice comes to an end. -/
theorem run_spec {fuel : Nat} (h : s.IsChoice edges) (hfuel : s.remaining edges ≤ fuel) :
    (run edges fuel s).IsChoice edges ∧ (run edges fuel s).buckets = [] := by
  induction fuel generalizing s with
  | zero =>
      refine ⟨h, ?_⟩
      rw [run]
      cases hbuckets : s.buckets with
      | nil => rfl
      | cons bucket rest =>
          rw [remaining, hbuckets, load, List.map_cons, total_cons] at hfuel
          omega
  | succ fuel ih =>
      rw [run]
      split
      next hbuckets => exact ⟨h, hbuckets⟩
      next w rest hbuckets =>
        refine ih (drop_spec h hbuckets) ?_
        have hload : load s.buckets = load rest + 1 := by
          rw [hbuckets]
          simp only [load, List.map_cons, total_cons, List.length_nil]
          omega
        rw [remaining, hload] at hfuel
        change load rest + 2 * s.pendingEdges edges ≤ fuel
        omega
      next weight v vs rest hbuckets =>
        dsimp only
        cases hcurrent : s.isCurrent weight v with
        | true =>
            obtain ⟨k, hk, -⟩ := isCurrent_iff.mp hcurrent
            obtain ⟨hchoice, hlt⟩ := pick_spec h hbuckets (hk ▸ rfl)
            exact ih hchoice (Nat.le_of_lt_succ (Nat.lt_of_lt_of_le hlt hfuel))
        | false =>
            refine ih (skip_spec h hbuckets (ne_of_not_isCurrent hcurrent)) ?_
            have hload : load s.buckets = load ((weight, vs) :: rest) + 1 := by
              rw [hbuckets]
              simp only [load, List.map_cons, total_cons, List.length_cons]
              omega
            rw [remaining, hload] at hfuel
            change load ((weight, vs) :: rest) + 2 * s.pendingEdges edges ≤ fuel
            omega

end Picking

open Picking

variable {edges : WeightedEdges}

theorem size_incoming (edges : WeightedEdges) : edges.incoming.size = edges.size := by
  have hinner : ∀ (targets : List (Nat × Nat)) (ws : Array Nat),
      (targets.foldl (fun ws target => ws.modify target.1 (· + target.2)) ws).size = ws.size := by
    intro targets
    induction targets with
    | nil => exact fun _ => rfl
    | cons target targets ih => exact fun ws => (ih _).trans Array.size_modify
  have houter : ∀ (lists : List (List (Nat × Nat))) (ws : Array Nat),
      (lists.foldl (fun ws targets =>
        targets.foldl (fun ws target => ws.modify target.1 (· + target.2)) ws) ws).size =
          ws.size := by
    intro lists
    induction lists with
    | nil => exact fun _ => rfl
    | cons targets lists ih => exact fun ws => (ih _).trans (hinner targets ws)
  rw [incoming, ← Array.foldl_toList]
  exact (houter _ _).trans Array.size_replicate

theorem isFiled_foldl_file (entries : List (Nat × Nat)) (buckets : List (Nat × List Nat))
    {w v : Nat} : IsFiled w v (entries.foldl (fun bs (w, v) => file w v bs) buckets) ↔
      (w, v) ∈ entries ∨ IsFiled w v buckets := by
  induction entries generalizing buckets with
  | nil => exact (or_iff_right List.not_mem_nil).symm
  | cons entry entries ih =>
      refine (ih _).trans ?_
      rw [isFiled_file, List.mem_cons, Prod.ext_iff, or_left_comm, or_assoc]

theorem load_foldl_file_le (entries : List (Nat × Nat)) (buckets : List (Nat × List Nat)) :
    load (entries.foldl (fun bs (w, v) => file w v bs) buckets) ≤
      load buckets + 2 * entries.length := by
  induction entries generalizing buckets with
  | nil => exact Nat.le_refl _
  | cons entry entries ih =>
      refine Nat.le_trans (ih (file entry.1 entry.2 buckets)) ?_
      have hle : load (file entry.1 entry.2 buckets) ≤ load buckets + 2 := load_file_le
      rw [List.length_cons]
      omega

theorem isChoice_start (edges : WeightedEdges) : edges.start.IsChoice edges where
  size := Array.size_map.trans (size_incoming edges)
  nodup := List.nodup_nil
  mem v := by
    refine iff_of_false List.not_mem_nil fun ⟨hv, hnone⟩ => ?_
    have hlt : v < edges.incoming.size := size_incoming edges ▸ hv
    simp [start, weight?, hlt] at hnone
  filed v w hw := by
    refine (isFiled_foldl_file _ _).mpr (.inl ?_)
    rw [List.mem_zipIdx_iff_getElem?, Array.getElem?_toList]
    change (edges.incoming.map some).getD v none = some w at hw
    rw [Array.getD_eq_getD_getElem?, Array.getElem?_map] at hw
    cases hget : edges.incoming[v]? with
    | none =>
        rw [hget] at hw
        cases hw
    | some k =>
        rw [hget] at hw
        exact hw

theorem toList_map {α : Type} (edges : WeightedEdges) (f : List (Nat × Nat) → α) :
    edges.toList.map f = (List.range edges.size).map fun v => f (edges.getD v []) := by
  refine List.ext_getElem? fun i => ?_
  rw [List.getElem?_map, List.getElem?_map, Array.getElem?_toList]
  by_cases hi : i < edges.size
  · simp [hi]
  · simp [hi]

theorem remaining_start_le (edges : WeightedEdges) :
    edges.start.remaining edges ≤ edges.stepBound := by
  have hload : load edges.start.buckets ≤ 2 * edges.size := by
    refine Nat.le_trans (load_foldl_file_le _ _) ?_
    simp [load, size_incoming]
  have hpending : edges.start.pendingEdges edges ≤
      total (edges.toList.map fun targets => targets.length) := by
    rw [toList_map, pendingEdges]
    induction List.range edges.size with
    | nil => exact Nat.le_refl _
    | cons v vs ih =>
        simp only [List.map_cons, total_cons]
        split <;> omega
  have htotal : ∀ lists : List (List (Nat × Nat)),
      total (lists.map fun targets => targets.length + 1) =
        total (lists.map fun targets => targets.length) + lists.length := by
    intro lists
    induction lists with
    | nil => rfl
    | cons targets lists ih =>
        simp only [List.map_cons, total_cons, List.length_cons, ih]
        omega
  rw [remaining, stepBound, htotal, Array.length_toList]
  omega

/-- Each vertex occurs once in the order. -/
theorem perm_order (edges : WeightedEdges) : edges.order.Perm (List.range edges.size) := by
  obtain ⟨hchoice, hempty⟩ := run_spec (isChoice_start edges) (remaining_start_le edges)
  refine (List.reverse_perm _).trans
    ((List.perm_ext_iff_of_nodup hchoice.nodup List.nodup_range).mpr fun v => ?_)
  rw [hchoice.mem, List.mem_range]
  refine and_iff_left_of_imp fun _ => ?_
  cases hv : (run edges edges.stepBound edges.start).weight? v with
  | none => rfl
  | some w =>
      obtain ⟨vs, hmem, -⟩ := hchoice.filed v w hv
      rw [hempty] at hmem
      cases hmem

end WeightedEdges
end Graph
end FinitePlanning
