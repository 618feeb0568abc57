import Mathlib.Algebra.BigOperators.Group.Finset.Basic
import Mathlib.Algebra.Order.BigOperators.Group.Finset
import FinitePlanning.Proofs.Invariant.Cover

/-!
The choice of groups by buckets is the greedy one. The groups that are not chosen yet are filed in
buckets by sizes that they may have lost since then, so that the bucket in which a group is bounds
its size. The first group of the last bucket that has the size of the bucket is therefore the
earliest one of the largest groups; all other groups of the bucket are filed again.
-/

namespace FinitePlanning
namespace FactGroups

/-- What is left of a group when another one is chosen. -/
def leftOf (isPartial : Bool) (chosen g : List Atom) : List Atom :=
  if isPartial then g.filter (· ∉ chosen) else g

/-- The greedy choice among groups: as long as there is a group of two or more atoms, the earliest
one of the largest groups is chosen. -/
inductive ChoosesLargest (isPartial : Bool) : List (List Atom) → List (List Atom) → Prop where
  | stop {groups : List (List Atom)} (hsmall : ∀ g ∈ groups, g.length ≤ 1) :
      ChoosesLargest isPartial groups []
  | choose {before after : List (List Atom)} {g : List Atom} {chosen : List (List Atom)}
      (hlarge : 1 < g.length) (hbefore : ∀ h ∈ before, h.length < g.length)
      (hafter : ∀ h ∈ after, h.length ≤ g.length)
      (hrest : ChoosesLargest isPartial ((before ++ after).map (leftOf isPartial g)) chosen) :
      ChoosesLargest isPartial (before ++ g :: after) (g :: chosen)

/-- The groups that are chosen greedily, and a group for each atom that is in none of them. -/
def ChoosesGreedily (isPartial : Bool) (groups : List (List Atom)) (atoms : List Atom)
    (choice : List (List Atom)) : Prop :=
  ∃ chosen, ChoosesLargest isPartial groups chosen ∧
    choice = chosen ++ (atoms.filter fun a => ∀ g ∈ chosen, a ∉ g).map ([·])

section Unique

variable {before after before' after' : List (List Atom)} {g g' : List Atom}

/-- The earliest one of the largest groups is at one place only. -/
theorem eq_of_first_largest (hbefore : ∀ h ∈ before, h.length < g.length)
    (hafter : ∀ h ∈ after, h.length ≤ g.length) (hbefore' : ∀ h ∈ before', h.length < g'.length)
    (hafter' : ∀ h ∈ after', h.length ≤ g'.length)
    (heq : before ++ g :: after = before' ++ g' :: after') :
    before = before' ∧ g = g' ∧ after = after' := by
  rcases List.append_eq_append_iff.mp heq with ⟨between, rfl, h⟩ | ⟨between, rfl, h⟩
  · cases between with
    | nil => simpa using h
    | cons b between =>
        obtain ⟨rfl, rfl⟩ := List.cons.inj h
        exact absurd (hbefore' g (by simp)) (Nat.not_lt.mpr (hafter g' (by simp)))
  · cases between with
    | nil => simpa [eq_comm] using h
    | cons b between =>
        obtain ⟨rfl, rfl⟩ := List.cons.inj h
        exact absurd (hbefore g' (by simp)) (Nat.not_lt.mpr (hafter' g (by simp)))

theorem ChoosesLargest.unique {isPartial : Bool} {groups chosen chosen' : List (List Atom)}
    (h : ChoosesLargest isPartial groups chosen) (h' : ChoosesLargest isPartial groups chosen') :
    chosen' = chosen := by
  induction h generalizing chosen' with
  | stop hsmall =>
      cases h' with
      | stop => rfl
      | choose hlarge => exact absurd hlarge (Nat.not_lt.mpr (hsmall _ (by simp)))
  | @choose before after g chosen hlarge hbefore hafter hrest ih =>
      generalize hgroups : before ++ g :: after = groups at h'
      cases h' with
      | stop hsmall => exact absurd hlarge (Nat.not_lt.mpr (hsmall g (by simp [← hgroups])))
      | choose hlarge' hbefore' hafter' hrest' =>
          obtain ⟨rfl, rfl, rfl⟩ := eq_of_first_largest hbefore hafter hbefore' hafter' hgroups
          rw [ih hrest']

end Unique

namespace Choosing

/-! ### Buckets -/

variable {s : Choosing} {i j b : Nat} {positions : Finset Nat} {bucketOf : Nat → Nat}

@[simp] theorem mem_insertPosition {l : List Nat} : j ∈ insertPosition i l ↔ j = i ∨ j ∈ l := by
  induction l with
  | nil => simp [insertPosition]
  | cons k l ih =>
      rw [insertPosition]
      split
      · simp
      · split
        next h => simp [h]
        next => rw [List.mem_cons, ih, List.mem_cons, or_left_comm]

theorem pairwise_insertPosition {l : List Nat} (h : l.Pairwise (· < ·)) :
    (insertPosition i l).Pairwise (· < ·) := by
  induction l with
  | nil => simp [insertPosition]
  | cons k l ih =>
      rw [insertPosition]
      rw [List.pairwise_cons] at h
      split
      next hlt =>
        refine List.pairwise_cons.mpr ⟨?_, List.pairwise_cons.mpr h⟩
        rw [List.forall_mem_cons]
        exact ⟨hlt, fun j hj => hlt.trans (h.1 j hj)⟩
      next =>
        split
        next => exact List.pairwise_cons.mpr h
        next =>
          refine List.pairwise_cons.mpr ⟨fun j hj => ?_, ih h.2⟩
          rcases mem_insertPosition.mp hj with rfl | hj
          · omega
          · exact h.1 j hj

/-- The group at a position. -/
def groupAt (s : Choosing) (i : Nat) : List Atom :=
  s.groups.getD i []

def bucket (s : Choosing) (b : Nat) : List Nat :=
  s.buckets.getD b []

/-- The groups that are not chosen yet are those at the given positions. Each of them is in one
bucket, whose number bounds its size. -/
structure IsFiled (s : Choosing) (positions : Finset Nat) (bucketOf : Nat → Nat) : Prop where
  lt_size : ∀ i ∈ positions, i < s.groups.size
  mem_bucket : ∀ b i, i ∈ s.bucket b ↔ i ∈ positions ∧ bucketOf i = b
  sorted : ∀ b, (s.bucket b).Pairwise (· < ·)
  length_le : ∀ i ∈ positions, (s.groupAt i).length ≤ bucketOf i
  bucketOf_le : ∀ i ∈ positions, bucketOf i ≤ s.size
  size_lt : s.size < s.buckets.size

/-- The positions of groups that are in a set, in order. -/
def inOrder (s : Choosing) (positions : Finset Nat) : List Nat :=
  (List.range s.groups.size).filter (· ∈ positions)

def groupsAt (s : Choosing) (positions : Finset Nat) : List (List Atom) :=
  (s.inOrder positions).map s.groupAt

theorem mem_inOrder : i ∈ s.inOrder positions ↔ i < s.groups.size ∧ i ∈ positions := by
  simp [inOrder]

theorem inOrder_erase (s : Choosing) (positions : Finset Nat) (i : Nat) :
    s.inOrder (positions.erase i) = (s.inOrder positions).filter (· ≠ i) := by
  rw [inOrder, inOrder, List.filter_filter]
  exact List.filter_congr fun j _ => by simp

/-- A bound on the number of steps that are left: each makes the last bucket smaller, or moves a
group to an earlier bucket or out of all buckets. -/
def stepsLeft (s : Choosing) (positions : Finset Nat) (bucketOf : Nat → Nat) : Nat :=
  s.size + ∑ i ∈ positions, (bucketOf i + 1)

theorem bucket_file (h : (s.groupAt i).length < s.buckets.size) :
    (s.file i).bucket b =
      if b = (s.groupAt i).length then insertPosition i (s.bucket b) else s.bucket b := by
  simp only [file, bucket, groupAt, Array.getD_eq_getD_getElem?, Array.getElem?_modify] at h ⊢
  by_cases hb : b = (s.groups[i]?.getD []).length
  · subst hb
    simp [h]
  · simp [hb, Ne.symm hb]

/-! ### Steps -/

/-- A group is put into the bucket of its size. -/
theorem IsFiled.file (h : s.IsFiled positions bucketOf) (hi : i ∉ positions)
    (hsize : i < s.groups.size) (hlength : (s.groupAt i).length ≤ s.size) :
    (s.file i).IsFiled (insert i positions)
      (Function.update bucketOf i (s.groupAt i).length) := by
  have hne : ∀ j ∈ positions, j ≠ i := fun j hj heq => hi (heq ▸ hj)
  have hbucket : ∀ b, (s.file i).bucket b =
      if b = (s.groupAt i).length then insertPosition i (s.bucket b) else s.bucket b :=
    fun b => bucket_file (hlength.trans_lt h.size_lt)
  constructor
  · exact Finset.forall_mem_insert _ _ _ |>.mpr ⟨hsize, h.lt_size⟩
  · intro b j
    rw [hbucket]
    by_cases hj : j = i
    · subst hj
      have hnot : j ∉ s.bucket b := fun hmem => hi ((h.mem_bucket b j).mp hmem).1
      split
      next hb => simp [hb]
      next hb => simp [hnot, Ne.symm hb]
    · have hmem : j ∈ insertPosition i (s.bucket b) ↔ j ∈ s.bucket b := by simp [hj]
      rw [Finset.mem_insert, or_iff_right hj, Function.update_of_ne hj, ← h.mem_bucket]
      split
      · exact hmem
      · rfl
  · intro b
    rw [hbucket]
    split
    · exact pairwise_insertPosition (h.sorted b)
    · exact h.sorted b
  · rw [Finset.forall_mem_insert]
    refine ⟨by simp [groupAt, Choosing.file], fun j hj => ?_⟩
    rw [Function.update_of_ne (hne j hj)]
    exact h.length_le j hj
  · rw [Finset.forall_mem_insert]
    refine ⟨by rw [Function.update_self]; exact hlength, fun j hj => ?_⟩
    rw [Function.update_of_ne (hne j hj)]
    exact h.bucketOf_le j hj
  · simpa [Choosing.file] using h.size_lt

/-- The last bucket is left when it is empty. -/
theorem IsFiled.shrink (h : s.IsFiled positions bucketOf) (hbucket : s.bucket s.size = []) :
    ({ s with size := s.size - 1 }).IsFiled positions bucketOf where
  lt_size := h.lt_size
  mem_bucket := h.mem_bucket
  sorted := h.sorted
  length_le := h.length_le
  bucketOf_le i hi := by
    have hne : bucketOf i ≠ s.size := fun heq => by
      have hmem := (h.mem_bucket s.size i).mpr ⟨hi, heq⟩
      rw [hbucket] at hmem
      cases hmem
    have hle := h.bucketOf_le i hi
    change bucketOf i ≤ s.size - 1
    omega
  size_lt := (Nat.sub_le _ _).trans_lt h.size_lt

/-- The state without the first group of the last bucket. -/
def pop (s : Choosing) (rest : List Nat) : Choosing :=
  { s with buckets := s.buckets.set! s.size rest }

theorem bucket_pop (h : s.size < s.buckets.size) (rest : List Nat) :
    (s.pop rest).bucket b = if b = s.size then rest else s.bucket b := by
  simp only [pop, bucket, Array.getD_eq_getD_getElem?, Array.set!_eq_setIfInBounds,
    Array.getElem?_setIfInBounds]
  by_cases hb : b = s.size
  · simp [hb, h]
  · simp [hb, Ne.symm hb]

/-- What is taken from the last bucket is its first group. -/
structure IsFirst (s : Choosing) (positions : Finset Nat) (bucketOf : Nat → Nat) (i : Nat) :
    Prop where
  mem : i ∈ positions
  bucketOf_eq : bucketOf i = s.size
  le : ∀ j ∈ positions, bucketOf j = s.size → i ≤ j

theorem IsFiled.isFirst (h : s.IsFiled positions bucketOf) {rest : List Nat}
    (hbucket : s.bucket s.size = i :: rest) : s.IsFirst positions bucketOf i := by
  have hmem := fun j => h.mem_bucket s.size j
  have hsorted := h.sorted s.size
  rw [hbucket] at hmem hsorted
  obtain ⟨hi, hbucketOf⟩ := (hmem i).mp List.mem_cons_self
  refine ⟨hi, hbucketOf, fun j hj heq => ?_⟩
  rcases List.mem_cons.mp ((hmem j).mpr ⟨hj, heq⟩) with rfl | hrest
  · exact le_rfl
  · exact ((List.pairwise_cons.mp hsorted).1 j hrest).le

theorem IsFiled.pop (h : s.IsFiled positions bucketOf) {rest : List Nat}
    (hbucket : s.bucket s.size = i :: rest) :
    (s.pop rest).IsFiled (positions.erase i) bucketOf where
  lt_size j hj := h.lt_size j (Finset.mem_of_mem_erase hj)
  mem_bucket b j := by
    have hfirst := h.isFirst hbucket
    rw [bucket_pop h.size_lt, Finset.mem_erase]
    split
    next hb =>
      subst hb
      have hmem := h.mem_bucket s.size j
      have hsorted := h.sorted s.size
      rw [hbucket, List.mem_cons] at hmem
      rw [hbucket, List.pairwise_cons] at hsorted
      have hne : j ∈ rest → j ≠ i := fun hj => (hsorted.1 j hj).ne'
      rw [and_assoc, ← hmem]
      exact ⟨fun hj => ⟨hne hj, .inr hj⟩, fun ⟨hji, hj⟩ => hj.resolve_left hji⟩
    next hb =>
      rw [h.mem_bucket, and_assoc]
      refine ⟨fun hj => ⟨?_, hj⟩, And.right⟩
      rintro rfl
      exact hb (hj.2.symm.trans hfirst.bucketOf_eq)
  sorted b := by
    rw [bucket_pop h.size_lt]
    split
    · have hsorted := h.sorted s.size
      rw [hbucket] at hsorted
      exact hsorted.of_cons
    · exact h.sorted b
  length_le j hj := h.length_le j (Finset.mem_of_mem_erase hj)
  bucketOf_le j hj := h.bucketOf_le j (Finset.mem_of_mem_erase hj)
  size_lt := by simpa [Choosing.pop] using h.size_lt

theorem groupAt_choose (isPartial : Bool) (g : List Atom) (j : Nat) :
    (s.choose isPartial g).groupAt j = leftOf isPartial g (s.groupAt j) := by
  cases isPartial with
  | false => rfl
  | true =>
      simp only [choose, groupAt, leftOf, if_true, Array.getD_eq_getD_getElem?, Array.getElem?_map]
      cases s.groups[j]? <;> rfl

theorem size_groups_choose (isPartial : Bool) (g : List Atom) :
    (s.choose isPartial g).groups.size = s.groups.size := by
  cases isPartial with
  | false => rfl
  | true => exact Array.size_map

theorem length_leftOf_le (isPartial : Bool) (g h : List Atom) :
    (leftOf isPartial g h).length ≤ h.length := by
  cases isPartial with
  | false => exact le_rfl
  | true => exact List.length_filter_le _ h

/-- Groups that become smaller stay in their buckets. -/
theorem IsFiled.choose (h : s.IsFiled positions bucketOf) (isPartial : Bool) (g : List Atom) :
    (s.choose isPartial g).IsFiled positions bucketOf where
  lt_size i hi := by rw [size_groups_choose]; exact h.lt_size i hi
  mem_bucket := h.mem_bucket
  sorted := h.sorted
  length_le i hi := by
    rw [groupAt_choose]
    exact (length_leftOf_le isPartial g _).trans (h.length_le i hi)
  bucketOf_le := h.bucketOf_le
  size_lt := h.size_lt

theorem groupsAt_choose (isPartial : Bool) (g : List Atom) (positions : Finset Nat) :
    (s.choose isPartial g).groupsAt positions =
      (s.groupsAt positions).map (leftOf isPartial g) := by
  rw [groupsAt, groupsAt, inOrder, size_groups_choose, ← inOrder, List.map_map]
  exact List.map_congr_left fun j _ => groupAt_choose isPartial g j

/-- A group of the size of the last bucket that is the first one there is the earliest one of the
largest groups. -/
theorem IsFiled.exists_split (h : s.IsFiled positions bucketOf)
    (hfirst : s.IsFirst positions bucketOf i) (hlength : (s.groupAt i).length = s.size) :
    ∃ before after, s.groupsAt positions = before ++ s.groupAt i :: after ∧
      s.groupsAt (positions.erase i) = before ++ after ∧
      (∀ g ∈ before, g.length < (s.groupAt i).length) ∧
      ∀ g ∈ after, g.length ≤ (s.groupAt i).length := by
  have hsorted : (s.inOrder positions).Pairwise (· < ·) := List.pairwise_lt_range.filter _
  obtain ⟨before, after, hsplit⟩ :=
    List.append_of_mem (mem_inOrder.mpr ⟨h.lt_size i hfirst.mem, hfirst.mem⟩)
  have hpositions : ∀ j ∈ before ++ i :: after, j ∈ positions := fun j hj =>
    (mem_inOrder.mp (hsplit ▸ hj)).2
  rw [hsplit, List.pairwise_append, List.pairwise_cons] at hsorted
  obtain ⟨-, ⟨hafter, -⟩, hbefore⟩ := hsorted
  have hle : ∀ j ∈ positions, (s.groupAt j).length ≤ s.size := fun j hj =>
    (h.length_le j hj).trans (h.bucketOf_le j hj)
  refine ⟨before.map s.groupAt, after.map s.groupAt, ?_, ?_, ?_, ?_⟩
  · rw [groupsAt, hsplit, List.map_append, List.map_cons]
  · have hkeep : ∀ l : List Nat, (∀ j ∈ l, j ≠ i) → l.filter (· ≠ i) = l := fun l hl =>
      List.filter_eq_self.mpr fun j hj => by simpa using hl j hj
    rw [groupsAt, inOrder_erase, hsplit, List.filter_append, List.filter_cons_of_neg (by simp),
      hkeep before fun j hj => (hbefore j hj i List.mem_cons_self).ne,
      hkeep after fun j hj => (hafter j hj).ne', List.map_append]
  · intro g hg
    obtain ⟨j, hj, rfl⟩ := List.mem_map.mp hg
    have hjpos := hpositions j (List.mem_append_left _ hj)
    refine lt_of_le_of_ne (hlength ▸ hle j hjpos) fun heq => ?_
    -- a group of that size would stand in the last bucket, before its first one
    have hbucket : bucketOf j = s.size := le_antisymm (h.bucketOf_le j hjpos)
      (hlength ▸ heq ▸ h.length_le j hjpos)
    exact absurd (hbefore j hj i List.mem_cons_self) (hfirst.le j hjpos hbucket).not_gt
  · intro g hg
    obtain ⟨j, hj, rfl⟩ := List.mem_map.mp hg
    exact hlength ▸ hle j (hpositions j (List.mem_append_right _ (List.mem_cons_of_mem i hj)))

/-! ### Runs -/

/-- Whether all groups that are not chosen are small. -/
def IsDone (s : Choosing) : Prop :=
  s.size ≤ 1

instance : Decidable s.IsDone :=
  inferInstanceAs (Decidable (s.size ≤ 1))

/-- If all groups are small then none is chosen. -/
theorem IsFiled.stop (h : s.IsFiled positions bucketOf) (hdone : s.IsDone) (isPartial : Bool) :
    ChoosesLargest isPartial (s.groupsAt positions) [] := by
  refine .stop fun g hg => ?_
  obtain ⟨i, hi, rfl⟩ := List.mem_map.mp hg
  have hmem := (mem_inOrder.mp hi).2
  exact ((h.length_le i hmem).trans (h.bucketOf_le i hmem)).trans hdone

theorem stepsLeft_pop (hi : i ∈ positions) (rest : List Nat) :
    (s.pop rest).stepsLeft (positions.erase i) bucketOf + (bucketOf i + 1) =
      s.stepsLeft positions bucketOf := by
  have hsum := Finset.sum_erase_add positions (fun j => bucketOf j + 1) hi
  rw [stepsLeft, stepsLeft, ← hsum, Nat.add_assoc]
  rfl

theorem stepsLeft_file (hi : i ∉ positions) :
    (s.file i).stepsLeft (insert i positions)
        (Function.update bucketOf i (s.groupAt i).length) =
      s.stepsLeft positions bucketOf + ((s.groupAt i).length + 1) := by
  have hsum : ∑ j ∈ positions, (Function.update bucketOf i (s.groupAt i).length j + 1) =
      ∑ j ∈ positions, (bucketOf j + 1) := by
    refine Finset.sum_congr rfl fun j hj => ?_
    have hne : j ≠ i := fun heq => hi (heq ▸ hj)
    rw [Function.update_of_ne hne]
  rw [stepsLeft, stepsLeft, Finset.sum_insert hi, hsum, Function.update_self]
  change s.size + _ = _
  omega

section Step

variable (isPartial : Bool) (fuel : Nat)

theorem run_of_isDone (hdone : s.IsDone) : run isPartial fuel s = s := by
  cases fuel with
  | zero => rfl
  | succ fuel => rw [run, if_pos (show s.size ≤ 1 from hdone)]

theorem run_of_nil (hsize : ¬s.IsDone) (hbucket : s.bucket s.size = []) :
    run isPartial (fuel + 1) s = run isPartial fuel { s with size := s.size - 1 } := by
  rw [run, if_neg (show ¬s.size ≤ 1 from hsize), show s.buckets.getD s.size [] = [] from hbucket]

theorem run_of_cons {rest : List Nat} (hsize : ¬s.IsDone) (hbucket : s.bucket s.size = i :: rest) :
    run isPartial (fuel + 1) s = run isPartial fuel (if (s.groupAt i).length = s.size then
      (s.pop rest).choose isPartial (s.groupAt i) else (s.pop rest).file i) := by
  rw [run, if_neg (show ¬s.size ≤ 1 from hsize),
    show s.buckets.getD s.size [] = i :: rest from hbucket]
  rfl

end Step

section Last

variable {rest : List Nat} (h : s.IsFiled positions bucketOf) (hbucket : s.bucket s.size = i :: rest)
include h hbucket

/-- A group of the size of the last bucket is chosen. -/
theorem IsFiled.take (isPartial : Bool) (hlength : (s.groupAt i).length = s.size)
    (hsize : ¬s.IsDone) :
    ((s.pop rest).choose isPartial (s.groupAt i)).IsFiled (positions.erase i) bucketOf ∧
      (s.pop rest).stepsLeft (positions.erase i) bucketOf < s.stepsLeft positions bucketOf ∧
      ∀ chosen, ChoosesLargest isPartial
          (((s.pop rest).choose isPartial (s.groupAt i)).groupsAt (positions.erase i)) chosen →
        ChoosesLargest isPartial (s.groupsAt positions) (s.groupAt i :: chosen) := by
  have hfirst := h.isFirst hbucket
  have hsteps : (s.pop rest).stepsLeft (positions.erase i) bucketOf + (bucketOf i + 1) =
    s.stepsLeft positions bucketOf := stepsLeft_pop hfirst.mem rest
  refine ⟨(h.pop hbucket).choose isPartial _, by omega, fun chosen hchosen => ?_⟩
  obtain ⟨before, after, hsplit, herase, hbefore, hafter⟩ := h.exists_split hfirst hlength
  have hpop : (s.pop rest).groupsAt (positions.erase i) = before ++ after := herase
  rw [groupsAt_choose, hpop] at hchosen
  have hlarge : 1 < (s.groupAt i).length := hlength ▸ Nat.not_le.mp hsize
  exact hsplit ▸ .choose hlarge hbefore hafter hchosen

/-- A group that has become smaller is filed again. -/
theorem IsFiled.refile (hlength : (s.groupAt i).length ≠ s.size) :
    ∃ bucketOf', ((s.pop rest).file i).IsFiled positions bucketOf' ∧
      ((s.pop rest).file i).stepsLeft positions bucketOf' < s.stepsLeft positions bucketOf := by
  have hfirst := h.isFirst hbucket
  have hbucketOf := hfirst.bucketOf_eq
  have hle : (s.groupAt i).length ≤ s.size := hbucketOf ▸ h.length_le i hfirst.mem
  have hnot := Finset.notMem_erase i positions
  have hfile : ((s.pop rest).file i).IsFiled _ (Function.update bucketOf i (s.groupAt i).length) :=
    (h.pop hbucket).file hnot (h.lt_size i hfirst.mem) hle
  have hpop : (s.pop rest).stepsLeft (positions.erase i) bucketOf + (bucketOf i + 1) =
    s.stepsLeft positions bucketOf := stepsLeft_pop hfirst.mem rest
  have hsteps : ((s.pop rest).file i).stepsLeft _ (Function.update bucketOf i (s.groupAt i).length) =
    _ + ((s.groupAt i).length + 1) := stepsLeft_file hnot
  rw [Finset.insert_erase hfirst.mem] at hfile hsteps
  exact ⟨_, hfile, by omega⟩

end Last

/-- From filed groups the run chooses greedily, and it ends. -/
theorem IsFiled.run {fuel : Nat} (h : s.IsFiled positions bucketOf)
    (hfuel : s.stepsLeft positions bucketOf ≤ fuel) (isPartial : Bool) :
    (Choosing.run isPartial fuel s).IsDone ∧
      ∃ chosen, ChoosesLargest isPartial (s.groupsAt positions) chosen ∧
        (Choosing.run isPartial fuel s).chosen = chosen.reverse ++ s.chosen := by
  induction fuel generalizing s positions bucketOf with
  | zero =>
      have hdone : s.size ≤ 1 := by
        rw [stepsLeft] at hfuel
        omega
      exact ⟨hdone, [], h.stop hdone isPartial, rfl⟩
  | succ fuel ih =>
      by_cases hsize : s.IsDone
      · rw [run_of_isDone isPartial _ hsize]
        exact ⟨hsize, [], h.stop hsize isPartial, rfl⟩
      cases hbucket : s.bucket s.size with
      | nil =>
          rw [run_of_nil isPartial fuel hsize hbucket]
          refine ih (h.shrink hbucket) ?_
          rw [stepsLeft] at hfuel ⊢
          rw [IsDone] at hsize
          dsimp only
          omega
      | cons i rest =>
          rw [run_of_cons isPartial fuel hsize hbucket]
          split
          next hlength =>
            obtain ⟨hfiled, hsteps, hextend⟩ := h.take hbucket isPartial hlength hsize
            obtain ⟨hdone, chosen, hchosen, hrun⟩ := ih hfiled
              (show (s.pop rest).stepsLeft (positions.erase i) bucketOf ≤ fuel by omega)
            refine ⟨hdone, s.groupAt i :: chosen, hextend chosen hchosen, ?_⟩
            rw [hrun, List.reverse_cons, List.append_assoc]
            rfl
          next hlength =>
            obtain ⟨bucketOf', hfiled, hsteps⟩ := h.refile hbucket hlength
            exact ih hfiled (by omega)

/-! ### The start -/

section Start

variable {groups : List (List Atom)}

/-- The state before the groups are filed. -/
def unfiled (groups : List (List Atom)) : Choosing :=
  let size := (groups.map (·.length)).foldl max 0
  ⟨groups.toArray, Array.replicate (size + 1) [], size, []⟩

/-- The size that the group at a position has at the start. -/
def firstSize (groups : List (List Atom)) (i : Nat) : Nat :=
  (groups.getD i []).length

theorem start_of_nodup (h : ∀ g ∈ groups, g.Nodup) :
    start groups = (List.range groups.length).foldl file (unfiled groups) := by
  have hgroups : groups.map (·.eraseDups) = groups :=
    map_eq_self fun g hg => eraseDups_of_nodup (h g hg)
  rw [start, hgroups]
  rfl

theorem groupAt_unfiled (groups : List (List Atom)) (i : Nat) :
    (unfiled groups).groupAt i = groups.getD i [] := by
  simp [unfiled, groupAt]

theorem bucket_unfiled (groups : List (List Atom)) (b : Nat) : (unfiled groups).bucket b = [] := by
  rw [unfiled, bucket, Array.getD_eq_getD_getElem?, Array.getElem?_replicate]
  split <;> rfl

theorem firstSize_le {i : Nat} (hi : i < groups.length) :
    firstSize groups i ≤ (unfiled groups).size := by
  rw [firstSize, List.getD_eq_getElem groups [] hi]
  exact le_foldl_max (List.mem_map_of_mem (List.getElem_mem hi))

/-- When some groups are filed, each is in the bucket of its size. -/
theorem isFiled_foldl_file (groups : List (List Atom)) {n : Nat} (hn : n ≤ groups.length) :
    ((List.range n).foldl file (unfiled groups)).IsFiled (Finset.range n) (firstSize groups) ∧
      ∃ buckets, (List.range n).foldl file (unfiled groups) = { unfiled groups with buckets } := by
  induction n with
  | zero =>
      refine ⟨⟨nofun, fun b i => ?_, fun b => ?_, nofun, nofun, by simp [unfiled]⟩, _, rfl⟩
      · simp [bucket_unfiled]
      · simp [bucket_unfiled]
  | succ n ih =>
      obtain ⟨hfiled, buckets, hs⟩ := ih (Nat.le_of_succ_le hn)
      rw [List.range_succ, List.foldl_append, List.foldl_cons, List.foldl_nil]
      rw [hs] at hfiled ⊢
      have hgroup : (groupAt { unfiled groups with buckets } n).length = firstSize groups n :=
        congrArg List.length (groupAt_unfiled groups n)
      have hfile := hfiled.file Finset.notMem_range_self (show n < groups.toArray.size from hn)
        (hgroup.trans_le (firstSize_le hn))
      rw [hgroup, Function.update_eq_self, ← Finset.range_add_one] at hfile
      exact ⟨hfile, _, rfl⟩

theorem sum_range_getD (groups : List (List Atom)) (f : List Atom → Nat) :
    ∑ i ∈ Finset.range groups.length, f (groups.getD i []) = total (groups.map f) := by
  induction groups with
  | nil => rfl
  | cons g groups ih =>
      rw [List.length_cons, Finset.sum_range_succ', List.map_cons, total_cons, ← ih, Nat.add_comm]
      rfl

/-- At the start all groups are filed, and the steps that are granted are enough. -/
theorem isFiled_start (h : ∀ g ∈ groups, g.Nodup) :
    (start groups).IsFiled (Finset.range groups.length) (firstSize groups) ∧
      (start groups).groupsAt (Finset.range groups.length) = groups ∧
      (start groups).stepsLeft (Finset.range groups.length) (firstSize groups) ≤
        stepBound groups := by
  obtain ⟨hfiled, buckets, hs⟩ := isFiled_foldl_file groups le_rfl
  rw [start_of_nodup h]
  refine ⟨hfiled, ?_, ?_⟩
  · have hinOrder : (List.range groups.length).filter (· ∈ Finset.range groups.length) =
        List.range groups.length := List.filter_eq_self.mpr fun i hi => by simpa using hi
    have hposition : ∀ i, groupAt { unfiled groups with buckets } i = groups.getD i [] :=
      groupAt_unfiled groups
    rw [hs, groupsAt, inOrder, show (unfiled groups).groups.size = groups.length from rfl, hinOrder]
    refine List.ext_getElem (by simp) fun i _ hi => ?_
    rw [List.getElem_map, List.getElem_range, hposition, List.getD_eq_getElem groups [] hi]
  · have hle : ∑ i ∈ Finset.range groups.length, (firstSize groups i + 1) ≤
        ∑ i ∈ Finset.range groups.length, ((groups.getD i []).length + 2) :=
      Finset.sum_le_sum fun i _ => Nat.le_succ _
    rw [sum_range_getD groups fun g => g.length + 2] at hle
    rw [hs, stepsLeft, stepBound]
    change (groups.map (·.length)).foldl max 0 + _ ≤ _
    omega

end Start

end Choosing

/-- The choice by buckets ends, and is the greedy one. The atoms that are in none of the chosen
groups follow in their order. -/
theorem groups_are_chosen_greedily {groups : List (List Atom)} (h : ∀ g ∈ groups, g.Nodup)
    (atoms : List Atom) (isPartial : Bool) :
    (Choosing.run isPartial (Choosing.stepBound groups) (Choosing.start groups)).IsDone ∧
      ∀ choice, ChoosesGreedily isPartial groups atoms choice ↔
        choice = chooseLarge groups isPartial ++
          singletons (uncovered (chooseLarge groups isPartial) atoms) := by
  obtain ⟨hfiled, hgroups, hsteps⟩ := Choosing.isFiled_start h
  obtain ⟨hdone, chosen, hchosen, hrun⟩ := hfiled.run hsteps isPartial
  have hlarge : chooseLarge groups isPartial = chosen := by
    have hstart : (Choosing.start groups).chosen = [] := (Choosing.start_spec groups).2
    rw [chooseLarge, hrun, hstart, List.append_nil, List.reverse_reverse]
  have huncovered : uncovered chosen atoms = atoms.filter fun a => ∀ g ∈ chosen, a ∉ g :=
    List.filter_congr fun a _ => by
      rw [Bool.eq_iff_iff]
      simp
  rw [hgroups] at hchosen
  rw [hlarge, huncovered]
  refine ⟨hdone, fun choice => ⟨?_, fun h => ⟨chosen, hchosen, h⟩⟩⟩
  rintro ⟨chosen', hchosen', rfl⟩
  rw [hchosen.unique hchosen']
  rfl

section Overlapping

private def fact (name : String) : Atom := .named name []

private def overlapping : List (List Atom) :=
  [[fact "a", fact "b"], [fact "b", fact "c", fact "d"], [fact "d", fact "e"]]

/-- The second group is chosen first, and leaves single atoms of the others. -/
theorem largest_group_is_chosen_first :
    (Choosing.run true (Choosing.stepBound overlapping) (Choosing.start overlapping)).IsDone ∧
    chooseLarge overlapping true ++ singletons (uncovered (chooseLarge overlapping true)
        [fact "a", fact "c", fact "e", fact "f"]) =
      [[fact "b", fact "c", fact "d"], [fact "a"], [fact "e"], [fact "f"]] := by
  have hchosen : ChoosesLargest true ([[fact "a", fact "b"]] ++ [fact "b", fact "c", fact "d"] ::
      [[fact "d", fact "e"]]) [[fact "b", fact "c", fact "d"]] :=
    .choose (by decide) (by decide) (by decide) (.stop (by decide))
  have hgreedy := groups_are_chosen_greedily (show ∀ g ∈ overlapping, g.Nodup by decide)
    [fact "a", fact "c", fact "e", fact "f"] true
  exact ⟨hgreedy.1, ((hgreedy.2 _).mp ⟨_, hchosen, by decide⟩).symm⟩

end Overlapping

end FactGroups
end FinitePlanning
