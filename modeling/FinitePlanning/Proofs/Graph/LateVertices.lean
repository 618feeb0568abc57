import FinitePlanning.Proofs.Graph.WeightedOrder

/-!
Late vertices come last in the order of a weighted graph. The weight of a vertex that is not picked
covers all that the remaining edges can still take off it, and the weight that makes a vertex late is
never taken off. So late vertices stand in heavy buckets, which are reached when only late vertices
are left.
-/

namespace FinitePlanning
namespace Graph
namespace WeightedEdges

variable {edges : WeightedEdges} {late : Nat → Prop} {u v w amount : Nat}
  {targets left : List (Nat × Nat)}

/-! ### Total weights -/

/-- The total cost of the edges to a vertex among some edges, by a cost of their weights. -/
def totalTo (cost : Nat → Nat) (v : Nat) (targets : List (Nat × Nat)) : Nat :=
  total ((targets.filter (·.1 = v)).map fun edge => cost edge.2)

/-- The total weight of the edges to a vertex. -/
def weightTo (edges : WeightedEdges) (v : Nat) : Nat :=
  totalTo id v edges.toList.flatten

@[simp] theorem totalTo_nil (cost : Nat → Nat) : totalTo cost v [] = 0 := rfl

theorem totalTo_cons (cost : Nat → Nat) : totalTo cost v ((w, amount) :: targets) =
    (if w = v then cost amount else 0) + totalTo cost v targets := by
  rw [totalTo, List.filter_cons]
  by_cases h : w = v
  · simp [h, totalTo]
  · simp [h, totalTo]

theorem totalTo_flatten (cost : Nat → Nat) (lists : List (List (Nat × Nat))) :
    totalTo cost v lists.flatten = total (lists.map (totalTo cost v)) := by
  induction lists with
  | nil => rfl
  | cons targets lists ih =>
      rw [List.flatten_cons, List.map_cons, total_cons, ← ih, totalTo, totalTo, totalTo,
        List.filter_append, List.map_append, total_append]

/-- What is taken off the weight of a vertex is at most this weight. -/
theorem totalTo_mod_le (targets : List (Nat × Nat)) :
    totalTo (· % lateWeight) v targets ≤ totalTo id v targets := by
  induction targets with
  | nil => exact Nat.le_refl 0
  | cons edge targets ih =>
      rw [totalTo_cons, totalTo_cons]
      split
      next => exact Nat.add_le_add (Nat.mod_le _ _) ih
      next => exact Nat.add_le_add_left ih 0

/-- One heavy edge is enough to leave the weight that makes its target late. -/
theorem late_add_totalTo_mod_le (h : (v, amount) ∈ targets) (hheavy : lateWeight ≤ amount) :
    lateWeight + totalTo (· % lateWeight) v targets ≤ totalTo id v targets := by
  induction targets with
  | nil => cases h
  | cons edge targets ih =>
      obtain ⟨w, weight⟩ := edge
      simp only [totalTo_cons, id]
      rcases List.mem_cons.mp h with heq | h
      · obtain ⟨rfl, rfl⟩ := Prod.mk.inj heq
        have hmod : amount % lateWeight + lateWeight ≤ amount := by
          have hle := Nat.mod_le (amount - lateWeight) lateWeight
          rw [← Nat.mod_eq_sub_mod hheavy] at hle
          omega
        have hrest := totalTo_mod_le (v := v) targets
        rw [if_pos rfl, if_pos rfl]
        omega
      · have hmod : weight % lateWeight ≤ weight := Nat.mod_le _ _
        have hrest := ih h
        split <;> omega

theorem getElem?_incoming : edges.incoming[v]? =
    if v < edges.size then some (edges.weightTo v) else none := by
  have hfold : ∀ (l : List (Nat × Nat)) (a : Nat),
      l.foldl (fun a edge => a + edge.2) a = a + total (l.map fun edge => edge.2) := by
    intro l
    induction l with
    | nil => exact fun _ => rfl
    | cons edge l ih => exact fun a => (ih _).trans (Nat.add_assoc a _ _)
  rw [incoming, ← Array.foldl_toList, ← List.foldl_flatten]
  refine (getElem?_foldl_modify Prod.fst (fun (edge : Nat × Nat) => (· + edge.2)) _ _ v).trans ?_
  by_cases hv : v < edges.size
  · simp [hv, hfold, weightTo, totalTo]
  · simp [hv]

namespace Picking

variable {s : Picking} {buckets : List (Nat × List Nat)} {weight k : Nat}

/-! ### Runs -/

/-- What each step of a run keeps holds at its end if it holds at its start. -/
theorem run_induction {P : Picking → Prop}
    (drop : ∀ s weight rest, P s → s.buckets = (weight, []) :: rest →
      P { s with buckets := rest })
    (skip : ∀ s weight v vs rest, P s → s.buckets = (weight, v :: vs) :: rest →
      s.isCurrent weight v = false → P { s with buckets := (weight, vs) :: rest })
    (pick : ∀ s weight v vs rest, P s → s.buckets = (weight, v :: vs) :: rest →
      s.isCurrent weight v = true →
        P (Picking.pick edges { s with buckets := (weight, vs) :: rest } v))
    {fuel : Nat} (h : P s) : P (run edges fuel s) := by
  induction fuel generalizing s with
  | zero => exact h
  | succ fuel ih =>
      rw [run]
      split
      next => exact h
      next weight rest hbuckets => exact ih (drop s weight rest h hbuckets)
      next weight v vs rest hbuckets =>
        dsimp only
        cases hcurrent : s.isCurrent weight v with
        | false => exact ih (skip s weight v vs rest h hbuckets hcurrent)
        | true => exact ih (pick s weight v vs rest h hbuckets hcurrent)

/-! ### Weights that cover what is taken off -/

/-- The weight of each vertex is at least a lower bound and what is still taken off it, where some
edges of the vertex picked last are left to be dealt with. -/
structure IsCovered (edges : WeightedEdges) (bound : Nat → Nat) (left : List (Nat × Nat))
    (s : Picking) : Prop where
  size : s.weights.size = edges.size
  le : ∀ v k, s.weight? v = some k →
    bound v + (s.pendingTotal edges (totalTo (· % lateWeight) v) +
      totalTo (· % lateWeight) v left) ≤ k

variable {bound : Nat → Nat} {fuel : Nat}

namespace IsCovered

theorem take (h : s.IsCovered edges bound []) (hv : s.weight? v = some k) :
    (s.take v).IsCovered edges bound (edges.getD v []) where
  size := Array.size_setIfInBounds.trans h.size
  le u n hu := by
    rw [weight?_take] at hu
    split at hu
    next => cases hu
    next =>
      have hcover := h.le u n hu
      rw [totalTo_nil, ← pendingTotal_take _ (h.size ▸ lt_of_weight? hv) hv] at hcover
      exact hcover

/-- What an edge takes off its target is not more than the weight of the target. -/
theorem amount_le (h : s.IsCovered edges bound ((w, amount) :: left)) (hw : s.weight? w = some k) :
    bound w + amount % lateWeight ≤ k := by
  have hcover := h.le w k hw
  rw [totalTo_cons, if_pos rfl] at hcover
  omega

theorem release (h : s.IsCovered edges bound ((w, amount) :: left)) :
    (s.release (w, amount)).IsCovered edges bound left where
  size := (size_release _).trans h.size
  le u n hu := by
    rw [weight?_release] at hu
    rw [pendingTotal_release]
    split at hu
    next heq =>
      subst heq
      obtain ⟨k, hk, rfl⟩ := Option.map_eq_some_iff.mp hu
      have hcover := h.le u k hk
      rw [totalTo_cons, if_pos rfl] at hcover
      omega
    next hne =>
      have hcover := h.le u n hu
      rw [totalTo_cons, if_neg (Ne.symm hne), Nat.zero_add] at hcover
      exact hcover

theorem releases (h : s.IsCovered edges bound left) :
    (left.foldl Picking.release s).IsCovered edges bound [] := by
  induction left generalizing s with
  | nil => exact h
  | cons edge left ih => exact ih h.release

end IsCovered

/-! ### Checked subtraction -/

/-- Takes the weight of an edge off its target. This fails if the target is lighter. -/
def release? (s : Picking) (edge : Nat × Nat) : Option Picking :=
  if (s.weight? edge.1).all (edge.2 % lateWeight ≤ ·) then some (s.release edge) else none

/-- Picks a vertex with checked subtractions. -/
def pick? (edges : WeightedEdges) (s : Picking) (v : Nat) : Option Picking :=
  (edges.getD v []).foldlM release? (s.take v)

/-- Picks vertices with checked subtractions until all buckets are empty. -/
def run? (edges : WeightedEdges) : Nat → Picking → Option Picking
  | 0, s => some s
  | fuel + 1, s =>
    match s.buckets with
    | [] => some s
    | (_, []) :: rest => run? edges fuel { s with buckets := rest }
    | (weight, v :: vs) :: rest =>
      let current := s.isCurrent weight v
      let s := { s with buckets := (weight, vs) :: rest }
      (if current then s.pick? edges v else some s).bind (run? edges fuel)

theorem releases?_eq (h : s.IsCovered edges bound left) :
    left.foldlM release? s = some (left.foldl release s) := by
  induction left generalizing s with
  | nil => rfl
  | cons edge left ih =>
      obtain ⟨w, amount⟩ := edge
      have hfits : (s.weight? w).all (amount % lateWeight ≤ ·) = true := by
        cases hw : s.weight? w with
        | none => rfl
        | some k =>
            have hle := h.amount_le hw
            exact decide_eq_true (by omega)
      rw [List.foldlM_cons, release?, if_pos hfits]
      exact ih h.release

/-- The weight of each vertex stays large enough, so that all subtractions succeed. -/
theorem run?_eq (h : s.IsCovered edges bound []) : run? edges fuel s = some (run edges fuel s) := by
  induction fuel generalizing s with
  | zero => rfl
  | succ fuel ih =>
      rw [run?, run]
      rcases hbuckets : s.buckets with _ | ⟨⟨weight, _ | ⟨v, vs⟩⟩, rest⟩
      · rfl
      · exact ih ⟨h.size, h.le⟩
      · have hcover : Picking.IsCovered edges bound []
            { s with buckets := (weight, vs) :: rest } := ⟨h.size, h.le⟩
        dsimp only
        cases hcurrent : s.isCurrent weight v with
        | false => exact ih hcover
        | true =>
            obtain ⟨k, hk, -⟩ := isCurrent_iff.mp hcurrent
            have htake := hcover.take hk
            have hpick : Picking.pick? edges { s with buckets := (weight, vs) :: rest } v =
                some (Picking.pick edges { s with buckets := (weight, vs) :: rest } v) :=
              releases?_eq htake
            rw [if_pos rfl, if_pos rfl, hpick]
            exact ih htake.releases

/-! ### Late vertices -/

theorem mem_file {entry : Nat × List Nat} (h : entry ∈ file weight v buckets) :
    entry.1 = weight ∨ ∃ vs, (entry.1, vs) ∈ buckets := by
  induction buckets with
  | nil => exact .inl (congrArg Prod.fst (List.mem_singleton.mp h))
  | cons bucket rest ih =>
      obtain ⟨k, vs⟩ := bucket
      rw [file] at h
      split at h
      next =>
        rcases List.mem_cons.mp h with rfl | h
        · exact .inl rfl
        · exact .inr ⟨entry.2, h⟩
      next =>
        split at h
        next heq =>
          rcases List.mem_cons.mp h with rfl | h
          · exact .inl heq.symm
          · exact .inr ⟨entry.2, List.mem_cons_of_mem _ h⟩
        next =>
          rcases List.mem_cons.mp h with rfl | h
          · exact .inr ⟨vs, List.mem_cons_self⟩
          · exact (ih h).imp_right (Exists.imp fun _ => List.mem_cons_of_mem _)

theorem pairwise_file (h : buckets.Pairwise (·.1 < ·.1)) :
    (file weight v buckets).Pairwise (·.1 < ·.1) := by
  induction buckets with
  | nil => exact List.pairwise_singleton _ _
  | cons bucket rest ih =>
      obtain ⟨k, vs⟩ := bucket
      obtain ⟨hfirst, hrest⟩ := List.pairwise_cons.mp h
      rw [file]
      split
      next hlt =>
        refine List.pairwise_cons.mpr ⟨fun entry hentry => ?_, h⟩
        rcases List.mem_cons.mp hentry with rfl | hentry
        · exact hlt
        · exact Nat.lt_trans hlt (hfirst entry hentry)
      next hge =>
        split
        next => exact List.pairwise_cons.mpr ⟨hfirst, hrest⟩
        next hne =>
          refine List.pairwise_cons.mpr ⟨fun entry hentry => ?_, ih hrest⟩
          rcases mem_file hentry with hweight | ⟨us, hus⟩
          · rw [hweight]
            omega
          · exact hfirst (entry.1, us) hus

theorem pairwise_foldl_file (entries : List (Nat × Nat)) (buckets : List (Nat × List Nat))
    (h : buckets.Pairwise (·.1 < ·.1)) :
    (entries.foldl (fun bs (w, v) => file w v bs) buckets).Pairwise (·.1 < ·.1) := by
  induction entries generalizing buckets with
  | nil => exact h
  | cons entry entries ih => exact ih _ (pairwise_file h)

/-- Late vertices stay in heavy buckets, and each other vertex is light until it is picked. So late
vertices are picked when all others are. -/
structure KeepsLate (late : Nat → Prop) (s : Picking) : Prop where
  sorted : s.buckets.Pairwise (·.1 < ·.1)
  heavy : ∀ w v, late v → IsFiled w v s.buckets → lateWeight ≤ w
  light : ∀ v k, ¬ late v → s.weight? v = some k → k < lateWeight
  last : ∀ u ∈ s.picked, late u → ∀ v, ¬ late v → s.weight? v = none
  picked : s.picked.Pairwise fun v u => late u → late v

namespace KeepsLate

theorem release (h : s.KeepsLate late)
    (hbound : ∀ k, late w → s.weight? w = some k → lateWeight + amount % lateWeight ≤ k) :
    (s.release (w, amount)).KeepsLate late where
  sorted := by
    rcases release_cases s (w, amount) with hsame | ⟨_, -, hb⟩
    · rw [hsame]
      exact h.sorted
    · exact hb ▸ pairwise_file h.sorted
  heavy n v hv hfiled := by
    rcases release_cases s (w, amount) with hsame | ⟨lighter, hlighter, hb⟩
    · exact h.heavy n v hv (hsame ▸ hfiled)
    · rw [hb, isFiled_file] at hfiled
      rcases hfiled with ⟨rfl, rfl⟩ | hfiled
      · rw [weight?_release, if_pos rfl] at hlighter
        obtain ⟨k, hk, rfl⟩ := Option.map_eq_some_iff.mp hlighter
        have hle := hbound k hv hk
        omega
      · exact h.heavy n v hv hfiled
  light v k hv hk := by
    rw [weight?_release] at hk
    split at hk
    next =>
      obtain ⟨n, hn, rfl⟩ := Option.map_eq_some_iff.mp hk
      exact Nat.lt_of_le_of_lt (Nat.sub_le _ _) (h.light v n hv hn)
    next => exact h.light v k hv hk
  last u hu hlate v hv := by
    rw [picked_release] at hu
    exact weight?_release_eq_none.mpr (h.last u hu hlate v hv)
  picked := picked_release (s := s) _ ▸ h.picked

theorem releases (h : s.KeepsLate late) (hcover : s.IsCovered edges bound left)
    (hbound : ∀ v, late v → lateWeight ≤ bound v) : (left.foldl Picking.release s).KeepsLate late := by
  induction left generalizing s with
  | nil => exact h
  | cons edge left ih =>
      refine ih (h.release fun k hw hk => ?_) hcover.release
      have hle := hcover.amount_le hk
      have hlate := hbound _ hw
      omega

/-- Entries may be taken out of the buckets. -/
theorem shrink (h : s.KeepsLate late) {buckets : List (Nat × List Nat)}
    (hsorted : buckets.Pairwise (·.1 < ·.1))
    (hfiled : ∀ w v, IsFiled w v buckets → IsFiled w v s.buckets) :
    Picking.KeepsLate late { s with buckets } where
  sorted := hsorted
  heavy w v hv hw := h.heavy w v hv (hfiled w v hw)
  light := h.light
  last := h.last
  picked := h.picked

theorem drop (h : s.KeepsLate late) {rest : List (Nat × List Nat)}
    (hbuckets : s.buckets = (weight, []) :: rest) :
    Picking.KeepsLate late { s with buckets := rest } := by
  have hsorted := h.sorted
  rw [hbuckets] at hsorted
  exact h.shrink (List.pairwise_cons.mp hsorted).2 fun w v hfiled =>
    hbuckets ▸ isFiled_cons.mpr (.inr hfiled)

theorem pass (h : s.KeepsLate late) {vs : List Nat} {rest : List (Nat × List Nat)}
    (hbuckets : s.buckets = (weight, v :: vs) :: rest) :
    Picking.KeepsLate late { s with buckets := (weight, vs) :: rest } := by
  have hsorted := h.sorted
  rw [hbuckets] at hsorted
  refine h.shrink (List.pairwise_cons.mpr (List.pairwise_cons.mp hsorted)) fun w u hfiled => ?_
  rw [hbuckets, isFiled_cons]
  exact (isFiled_cons.mp hfiled).imp_left fun ⟨hw, hu⟩ => ⟨hw, List.mem_cons_of_mem v hu⟩

theorem take (h : s.KeepsLate late) (hv : s.weight? v = some k)
    (hlast : late v → ∀ u, ¬ late u → s.weight? u = none) : (s.take v).KeepsLate late where
  sorted := h.sorted
  heavy := h.heavy
  light u n hu hn := by
    rw [weight?_take] at hn
    split at hn
    next => cases hn
    next => exact h.light u n hu hn
  last u hu hlate w hw := by
    rw [weight?_take]
    split
    next => rfl
    next =>
      rcases List.mem_cons.mp hu with rfl | hu
      · exact hlast hlate w hw
      · exact h.last u hu hlate w hw
  picked := by
    refine List.pairwise_cons.mpr ⟨fun u hu hlate => ?_, h.picked⟩
    by_contra hnot
    rw [h.last u hu hlate v hnot] at hv
    cases hv

end KeepsLate

/-- A late vertex in the first bucket is picked after all vertices that are not late. -/
theorem KeepsLate.weight?_eq_none (h : s.KeepsLate late) (hchoice : s.IsChoice edges)
    {vs : List Nat} {rest : List (Nat × List Nat)} (hbuckets : s.buckets = (weight, v :: vs) :: rest)
    (hv : late v) (hu : ¬ late u) : s.weight? u = none := by
  refine Option.eq_none_iff_forall_ne_some.mpr fun k hk => ?_
  have hheavy : lateWeight ≤ weight := h.heavy weight v hv
    (hbuckets ▸ isFiled_cons.mpr (.inl ⟨rfl, List.mem_cons_self⟩))
  have hlight := h.light u k hu hk
  have hfiled := hchoice.filed u k hk
  have hsorted := h.sorted
  rw [hbuckets] at hfiled hsorted
  rcases isFiled_cons.mp hfiled with ⟨heq, -⟩ | ⟨us, hus, -⟩
  · omega
  · have hlt : weight < k := (List.pairwise_cons.mp hsorted).1 _ hus
    omega

/-- The invariant of a run. -/
structure Delays (edges : WeightedEdges) (late : Nat → Prop) (bound : Nat → Nat) (s : Picking) :
    Prop where
  choice : s.IsChoice edges
  covered : s.IsCovered edges bound []
  late : s.KeepsLate late

/-- At the end of a run, late vertices were picked after all others. -/
theorem Delays.run (h : s.Delays edges late bound) (hbound : ∀ v, late v → lateWeight ≤ bound v) :
    (run edges fuel s).Delays edges late bound := by
  refine run_induction ?_ ?_ ?_ h
  · intro s weight rest h hbuckets
    exact ⟨drop_spec h.choice hbuckets, ⟨h.covered.size, h.covered.le⟩, h.late.drop hbuckets⟩
  · intro s weight v vs rest h hbuckets hcurrent
    exact ⟨skip_spec h.choice hbuckets (ne_of_not_isCurrent hcurrent),
      ⟨h.covered.size, h.covered.le⟩, h.late.pass hbuckets⟩
  · intro s weight v vs rest h hbuckets hcurrent
    obtain ⟨k, hk, -⟩ := isCurrent_iff.mp hcurrent
    have htake : Picking.IsCovered edges bound (edges.getD v [])
        (Picking.take { s with buckets := (weight, vs) :: rest } v) :=
      IsCovered.take ⟨h.covered.size, h.covered.le⟩ hk
    have hlast : late v → ∀ u, ¬ late u → s.weight? u = none := fun hv u hu =>
      h.late.weight?_eq_none h.choice hbuckets hv hu
    exact ⟨(pick_spec h.choice hbuckets (hk ▸ rfl)).1, htake.releases,
      ((h.late.pass hbuckets).take hk hlast).releases htake hbound⟩

end Picking

open Picking

/-! ### Orders -/

theorem weight?_start :
    edges.start.weight? v = if v < edges.size then some (edges.weightTo v) else none := by
  change (edges.incoming.map some).getD v none = _
  rw [Array.getD_eq_getD_getElem?, Array.getElem?_map, getElem?_incoming]
  split
  · rfl
  · rfl

theorem pendingTotal_start (edges : WeightedEdges) (cost : List (Nat × Nat) → Nat) :
    edges.start.pendingTotal edges cost = total (edges.toList.map cost) := by
  rw [pendingTotal, toList_map]
  refine congrArg total (List.map_congr_left fun v hv => if_pos ?_)
  rw [weight?_start, if_pos (List.mem_range.mp hv)]
  rfl

theorem isCovered_start {bound : Nat → Nat}
    (h : ∀ v < edges.size,
      bound v + totalTo (· % lateWeight) v edges.toList.flatten ≤ edges.weightTo v) :
    edges.start.IsCovered edges bound [] where
  size := Array.size_map.trans (size_incoming edges)
  le v k hk := by
    rw [weight?_start] at hk
    split at hk
    next hv =>
      obtain rfl := Option.some.inj hk
      rw [pendingTotal_start, ← totalTo_flatten]
      exact h v hv
    next => cases hk

/-- The vertices in an order in which few edges lead backwards. This fails if the weight of an edge
is taken off a vertex that is lighter. -/
def checkedOrder (edges : WeightedEdges) : Option (List Nat) :=
  (run? edges edges.stepBound edges.start).map (·.picked.reverse)

/-- No vertex ever gets a negative weight. -/
theorem checkedOrder_eq (edges : WeightedEdges) : edges.checkedOrder = some edges.order := by
  have hcover : edges.start.IsCovered edges (fun _ => 0) [] :=
    isCovered_start fun v _ => le_of_eq_of_le (Nat.zero_add _) (totalTo_mod_le _)
  rw [checkedOrder, run?_eq hcover]
  rfl

/-- Each late vertex has a heavy edge to it, and the edges to each other vertex are light even taken
together. -/
structure Separates (edges : WeightedEdges) (late : Nat → Prop) : Prop where
  heavy : ∀ v < edges.size, late v →
    ∃ targets ∈ edges, ∃ amount, (v, amount) ∈ targets ∧ lateWeight ≤ amount
  light : ∀ v < edges.size, ¬ late v → edges.weightTo v < lateWeight

theorem Separates.late_add_le (h : edges.Separates late) (hv : v < edges.size) (hlate : late v) :
    lateWeight + totalTo (· % lateWeight) v edges.toList.flatten ≤ edges.weightTo v := by
  obtain ⟨targets, htargets, amount, hmem, hheavy⟩ := h.heavy v hv hlate
  exact late_add_totalTo_mod_le
    (List.mem_flatten.mpr ⟨targets, Array.mem_toList_iff.mpr htargets, hmem⟩) hheavy

theorem Separates.keepsLate_start (h : edges.Separates late) : edges.start.KeepsLate late where
  sorted := pairwise_foldl_file _ _ .nil
  heavy w v hlate hfiled := by
    rcases (isFiled_foldl_file _ _).mp hfiled with hmem | ⟨vs, hvs, -⟩
    · rw [List.mem_zipIdx_iff_getElem?, Array.getElem?_toList, getElem?_incoming] at hmem
      split at hmem
      next hv =>
        have hw : edges.weightTo v = w := Option.some.inj hmem
        exact hw ▸ Nat.le_trans (Nat.le_add_right _ _) (h.late_add_le hv hlate)
      next => cases hmem
    · cases hvs
  light v k hlate hk := by
    rw [weight?_start] at hk
    split at hk
    next hv => exact Option.some.inj hk ▸ h.light v hv hlate
    next => cases hk
  last := nofun
  picked := .nil

open Classical in
theorem Separates.delays (h : edges.Separates late) :
    edges.start.Delays edges late fun v => if late v then lateWeight else 0 where
  choice := isChoice_start edges
  covered := isCovered_start fun v hv => by
    split
    next hlate => exact h.late_add_le hv hlate
    next => exact le_of_eq_of_le (Nat.zero_add _) (totalTo_mod_le _)
  late := h.keepsLate_start

/-- Late vertices come after all others. -/
theorem Separates.pairwise_order (h : edges.Separates late) :
    edges.order.Pairwise fun u v => late u → late v := by
  classical
  have hend : (run edges edges.stepBound edges.start).Delays edges late _ :=
    h.delays.run fun v hv => Nat.le_of_eq (if_pos hv).symm
  exact List.pairwise_reverse.mpr hend.late.picked

end WeightedEdges
end Graph
end FinitePlanning
