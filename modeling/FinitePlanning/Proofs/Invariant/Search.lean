import Mathlib.Data.ENat.Basic
import Mathlib.Data.Set.Finite.List
import FinitePlanning.Proofs.Invariant.Candidates
import FinitePlanning.Proofs.Invariant.Groups
import FinitePlanning.Proofs.Stratification.Layers

/-!
The search for invariants comes to an end, also without a bound on the number of candidates: only
finitely many parts fit the predicates of a task, and each candidate enters the queue once. A bound
cuts the search short and changes nothing else.
-/

namespace FinitePlanning

instance : Std.TransOrd InvariantPart :=
  inferInstanceAs (Std.TransCmp (compareLex (compareOn InvariantPart.predicate)
    (compareLex (compareOn InvariantPart.order) (compareOn InvariantPart.omitted))))

instance : Std.LawfulEqOrd InvariantPart where
  eq_of_compare {p q} h := by
    obtain ⟨hpredicate, h⟩ := compareLex_eq_eq.mp h
    obtain ⟨horder, homitted⟩ := compareLex_eq_eq.mp h
    cases p
    cases q
    simp only [InvariantPart.mk.injEq]
    exact ⟨Std.LawfulEqCmp.eq_of_compare hpredicate, Std.LawfulEqCmp.eq_of_compare horder,
      Std.LawfulEqCmp.eq_of_compare homitted⟩

instance : Std.TransOrd Invariant :=
  inferInstanceAs (Std.TransCmp (compareOn Invariant.parts))

instance : Std.LawfulEqOrd Invariant where
  eq_of_compare {v w} h := by
    cases v
    cases w
    exact congrArg Invariant.mk (Std.LawfulEqCmp.eq_of_compare h)

namespace Invariant
namespace Search

variable {t : Task} {argumentsOf : Nat → List (List String)} {actions : List BalancedAction}
  {m n : ℕ∞} {s s' : Search} {v w : Invariant} {queue refined : List Invariant}

/-- Adds a candidate unless it was seen or there are too many. With the bound `⊤` there never are. -/
def accept (most : ℕ∞) (s : Search) (v : Invariant) : Search :=
  if s.seen.size < most && !s.seen.contains v then
    { s with queue := s.queue ++ [v], seen := s.seen.insert v }
  else s

/-- The state after the test of the first candidate of the queue. -/
def tested (actions : List BalancedAction) (s : Search) (v : Invariant) (queue : List Invariant) :
    Search :=
  { s with queue, examined := (v, (v.violation? actions).isNone) :: s.examined }

/-- Examines the first candidate of the queue, if there is one. -/
def next (actions : List BalancedAction) (most : ℕ∞) (s : Search) : Search :=
  match s.queue with
  | [] => s
  | v :: queue =>
    ((v.violation? actions).getD []).foldl (accept most) (tested actions s v queue)

/-- The candidates that were examined, in order. -/
def order (s : Search) : List Invariant :=
  (s.examined.map (·.1)).reverse

/-! ### Steps -/

theorem accept_coe (most : ℕ) : accept most = enqueue most := by
  funext s v
  simp only [accept, enqueue, Nat.cast_lt]

theorem next_of_nil (h : s.queue = []) : next actions m s = s := by
  rw [next, h]

theorem next_of_cons (h : s.queue = v :: queue) : next actions m s =
    ((v.violation? actions).getD []).foldl (accept m) (tested actions s v queue) := by
  rw [next, h]

theorem next_coe {most : ℕ} (h : s.queue = v :: queue) :
    next actions most s = examine actions most { s with queue } v := by
  rw [next_of_cons h, tested, examine, accept_coe]
  cases v.violation? actions <;> rfl

/-- A run of the search examines candidate after candidate, all of them unless its time is up. -/
theorem eq_of_yields_run {budget : Budget} {most fuel : ℕ} {maxTime : Duration}
    (h : (run budget actions most maxTime fuel s).Yields s') :
    ∃ k ≤ fuel, s' = (next actions most)^[k] s ∧
      ((∀ n, budget.searchTime n ≤ maxTime) → k = fuel) := by
  induction fuel generalizing s with
  | zero => exact ⟨0, le_rfl, (Compilation.yields_pure h).symm, fun _ => rfl⟩
  | succ fuel ih =>
      rw [run] at h
      split at h
      next hqueue =>
        refine ⟨fuel + 1, le_rfl, ?_, fun _ => rfl⟩
        rw [Function.iterate_fixed (next_of_nil hqueue)]
        exact (Compilation.yields_pure h).symm
      next v queue hqueue =>
        obtain ⟨-, -, h⟩ := Compilation.yields_bind h
        split at h
        next htime =>
          obtain ⟨-, -, h⟩ := Compilation.yields_bind h
          exact ⟨0, Nat.zero_le _, (Compilation.yields_pure h).symm,
            fun hall => absurd htime (Nat.not_lt_of_le (hall _))⟩
        next =>
          obtain ⟨k, hk, hs', hall⟩ := ih h
          refine ⟨k + 1, Nat.succ_le_succ hk, ?_, fun htime => congrArg _ (hall htime)⟩
          rw [Function.iterate_succ_apply, next_coe hqueue]
          exact hs'

/-- What holds when the first candidate was tested, and when a candidate is added that a test
suggests, holds after the next step. -/
theorem next_induction {Q : Search → Prop} (hs : Q s)
    (htested : ∀ v queue, s.queue = v :: queue → Q (tested actions s v queue))
    (haccept : ∀ v ∈ s.queue, ∀ refined, v.violation? actions = some refined → ∀ w ∈ refined,
      ∀ s', Q s' → Q (accept m s' w)) : Q (next actions m s) := by
  cases hqueue : s.queue with
  | nil => exact (next_of_nil hqueue).symm ▸ hs
  | cons v queue =>
      rw [next_of_cons hqueue]
      refine List.foldlRecOn _ _ (htested v queue hqueue) fun s' hs' w hw => ?_
      cases hviolation : v.violation? actions with
      | none =>
          rw [hviolation] at hw
          cases hw
      | some refined =>
          rw [hviolation] at hw
          exact haccept v (hqueue ▸ List.mem_cons_self) refined hviolation w hw s' hs'

theorem iterate_induction {Q : Search → Prop} (hs : Q s) (hnext : ∀ s, Q s → Q (next actions m s))
    (k : ℕ) : Q ((next actions m)^[k] s) := by
  induction k generalizing s with
  | zero => exact hs
  | succ k ih =>
      rw [Function.iterate_succ_apply]
      exact ih (hnext s hs)

/-! ### The end -/

/-- Each candidate that is added to the queue is one more that was seen. -/
theorem length_queue_accept (s : Search) (v : Invariant) :
    (accept m s v).queue.length + s.seen.size = s.queue.length + (accept m s v).seen.size := by
  rw [accept]
  split
  next h =>
    have hnew : v ∉ s.seen := by simpa [Std.HashSet.contains_iff_mem] using (Bool.and_eq_true_iff.mp h).2
    simp [Std.HashSet.size_insert, hnew]
    omega
  next => rfl

theorem length_queue_next (h : s.queue ≠ []) :
    (next actions m s).queue.length + 1 + s.seen.size =
      s.queue.length + (next actions m s).seen.size := by
  obtain ⟨v, queue, hqueue⟩ := List.exists_cons_of_ne_nil h
  rw [next_of_cons hqueue]
  refine List.foldlRecOn (motive := fun s' : Search =>
    s'.queue.length + 1 + s.seen.size = s.queue.length + s'.seen.size) _ _ ?_ fun s' hs' w _ => ?_
  · simp [tested, hqueue]
  · have haccept : (accept m s' w).queue.length + _ = _ := length_queue_accept s' w
    omega

/-- If not too many candidates can be seen then the queue runs empty. -/
theorem queue_eq_nil {most : ℕ} (hmost : ∀ k, ((next actions m)^[k] s).seen.size ≤ most) {k : ℕ}
    (hk : s.queue.length + most ≤ k + s.seen.size) : ((next actions m)^[k] s).queue = [] := by
  induction k generalizing s with
  | zero =>
      have hseen : s.seen.size ≤ most := hmost 0
      exact List.length_eq_zero_iff.mp (by rw [Function.iterate_zero_apply]; omega)
  | succ k ih =>
      rw [Function.iterate_succ_apply]
      by_cases hqueue : s.queue = []
      · rw [next_of_nil hqueue, Function.iterate_fixed (next_of_nil hqueue), hqueue]
      · have hlength : (next actions m s).queue.length + 1 + _ = _ := length_queue_next hqueue
        refine ih (fun k => ?_) (by omega)
        rw [← Function.iterate_succ_apply]
        exact hmost (k + 1)

/-! ### The candidates that are examined -/

/-- A property of all candidates that came up. -/
structure Considers (P : Invariant → Prop) (s : Search) : Prop where
  seen : ∀ v ∈ s.seen, P v
  queue : ∀ v ∈ s.queue, P v
  order : ∀ v ∈ s.order, P v

theorem order_tested : (tested actions s v queue).order = s.order ++ [v] := by
  simp [tested, order]

theorem order_accept : (accept m s v).order = s.order := by
  rw [accept]
  split <;> rfl

theorem Considers.accept {P : Invariant → Prop} (h : s.Considers P) (hv : P v) :
    (accept m s v).Considers P := by
  refine ⟨?_, ?_, order_accept (s := s) ▸ h.order⟩
  all_goals
    rw [Search.accept]
    split
  · intro w hw
    rcases Std.HashSet.mem_insert.mp hw with hw | hw
    · exact eq_of_beq hw ▸ hv
    · exact h.seen w hw
  · exact h.seen
  · intro w hw
    rcases List.mem_append.mp hw with hw | hw
    · exact h.queue w hw
    · exact List.mem_singleton.mp hw ▸ hv
  · exact h.queue

theorem Considers.next {P : Invariant → Prop} (h : s.Considers P)
    (hrefine : ∀ v refined, P v → v.violation? actions = some refined → ∀ w ∈ refined, P w) :
    (next actions m s).Considers P := by
  refine next_induction h (fun v queue hqueue => ?_) fun v hv refined hrefined w hw s' hs' =>
    hs'.accept (hrefine v refined (h.queue v hv) hrefined w hw)
  have hv := List.forall_mem_cons.mp (hqueue ▸ h.queue)
  refine ⟨h.seen, hv.2, fun w hw => ?_⟩
  rw [order_tested, List.mem_append, List.mem_singleton] at hw
  rcases hw with hw | rfl
  · exact h.order w hw
  · exact hv.1

/-- No candidate comes up twice. -/
structure IsDistinct (s : Search) : Prop where
  nodup : (s.order ++ s.queue).Nodup
  seen : ∀ v ∈ s.order ++ s.queue, v ∈ s.seen

theorem IsDistinct.accept (h : s.IsDistinct) : (accept m s v).IsDistinct := by
  rw [Search.accept]
  split
  next hv =>
    have hnew : v ∉ s.seen := by
      simpa [Std.HashSet.contains_iff_mem] using (Bool.and_eq_true_iff.mp hv).2
    constructor
    · change (s.order ++ (s.queue ++ [v])).Nodup
      rw [← List.append_assoc]
      rw [← List.concat_eq_append]
      exact h.nodup.concat fun hmem => hnew (h.seen v hmem)
    · intro w hw
      change w ∈ s.order ++ (s.queue ++ [v]) at hw
      rw [← List.append_assoc, List.mem_append, List.mem_singleton] at hw
      rcases hw with hw | rfl
      · exact Std.HashSet.mem_insert.mpr (.inr (h.seen w hw))
      · exact Std.HashSet.mem_insert_self
  next => exact h

theorem IsDistinct.next (h : s.IsDistinct) : (next actions m s).IsDistinct := by
  refine next_induction h (fun v queue hqueue => ?_) fun _ _ _ _ _ _ s' hs' => hs'.accept
  have hsame : (tested actions s v queue).order ++ queue = s.order ++ s.queue := by
    rw [order_tested, hqueue, List.append_assoc, List.singleton_append]
  exact ⟨hsame ▸ h.nodup, hsame ▸ h.seen⟩

/-! ### Bounds -/

/-- A search with the bound `m` compared with one that has a larger bound. They agree until the
bound is reached. Then the first one only examines the candidates that it has. -/
inductive IsCutOff (m : ℕ∞) : Search → Search → Prop
  | same (s : Search) : IsCutOff m s s
  | behind {s s' : Search} (hfull : m ≤ s.seen.size) (hexamined : s.examined = s'.examined)
      (hqueue : s.queue <+: s'.queue) : IsCutOff m s s'

theorem accept_of_le (h : m ≤ s.seen.size) : accept m s v = s := by
  simp [accept, not_lt.mpr h]

theorem IsCutOff.accept (h : IsCutOff m s s') (hmn : m ≤ n) (v : Invariant) :
    IsCutOff m (accept m s v) (accept n s' v) := by
  have hlonger : ∀ s' : Search, s'.examined = (Search.accept n s' v).examined ∧
      s'.queue <+: (Search.accept n s' v).queue := by
    intro s'
    rw [Search.accept]
    split
    · exact ⟨rfl, List.prefix_append _ _⟩
    · exact ⟨rfl, List.prefix_rfl⟩
  cases h with
  | same =>
      by_cases hfull : m ≤ s.seen.size
      · rw [accept_of_le hfull]
        exact .behind hfull (hlonger s).1 (hlonger s).2
      · have haccept : Search.accept m s v = Search.accept n s v := by
          have hlt := not_le.mp hfull
          simp [Search.accept, hlt, hlt.trans_le hmn]
        rw [haccept]
        exact .same _
  | behind hfull hexamined hqueue =>
      rw [accept_of_le hfull]
      exact .behind hfull (hexamined.trans (hlonger s').1) (hqueue.trans (hlonger s').2)

theorem IsCutOff.next (h : IsCutOff m s s') (hmn : m ≤ n) (hqueue : s.queue ≠ []) :
    IsCutOff m (next actions m s) (next actions n s') := by
  obtain ⟨v, queue, hv⟩ := List.exists_cons_of_ne_nil hqueue
  obtain ⟨queue', hv', htested⟩ : ∃ queue', s'.queue = v :: queue' ∧
      IsCutOff m (tested actions s v queue) (tested actions s' v queue') := by
    cases h with
    | same => exact ⟨queue, hv, .same _⟩
    | behind hfull hexamined hprefix =>
        obtain ⟨rest, hrest⟩ := hprefix
        rw [hv, List.cons_append] at hrest
        refine ⟨queue ++ rest, hrest.symm, .behind hfull ?_ (List.prefix_append _ _)⟩
        simp only [tested, hexamined]
  rw [next_of_cons hv, next_of_cons hv']
  generalize (v.violation? actions).getD [] = refined
  generalize tested actions s v queue = s at htested
  generalize tested actions s' v queue' = s' at htested
  induction refined generalizing s s' with
  | nil => exact htested
  | cons w refined ih => exact ih _ _ (htested.accept hmn w)

theorem examined_next (s : Search) : s.examined <:+ (next actions m s).examined := by
  refine next_induction (Q := fun s' => s.examined <:+ s'.examined) List.suffix_rfl
    (fun v queue _ => List.suffix_cons _ _) fun _ _ _ _ w _ s' hs' => ?_
  rw [accept]
  split <;> exact hs'

/-- As long as the bounded search goes on it is cut off, and what it has examined when it ends is
examined by the other one as well. -/
theorem isCutOff_or_ended (hmn : m ≤ n) (k : ℕ) :
    IsCutOff m ((next actions m)^[k] s) ((next actions n)^[k] s) ∨
      ((next actions m)^[k] s).queue = [] ∧
        ((next actions m)^[k] s).examined <:+ ((next actions n)^[k] s).examined := by
  induction k with
  | zero => exact .inl (.same s)
  | succ k ih =>
      rw [Function.iterate_succ_apply', Function.iterate_succ_apply']
      generalize (next actions m)^[k] s = sₘ at ih
      generalize (next actions n)^[k] s = sₙ at ih
      by_cases hqueue : sₘ.queue = []
      · rw [next_of_nil hqueue]
        refine .inr ⟨hqueue, List.IsSuffix.trans ?_ (examined_next sₙ)⟩
        rcases ih with (_ | ⟨-, hexamined, -⟩) | ⟨-, hsuffix⟩
        · exact List.suffix_rfl
        · exact hexamined ▸ List.suffix_rfl
        · exact hsuffix
      · rcases ih with hcut | ⟨hended, -⟩
        · exact .inl (hcut.next hmn hqueue)
        · exact absurd hended hqueue

/-! ### The invariants that are found -/

theorem mem_proven : v ∈ s.proven ↔ (v, true) ∈ s.examined := by
  simp [proven, List.mem_mergeSort]

theorem order_of_suffix (h : s.examined <:+ s'.examined) : s.order <+: s'.order :=
  List.reverse_prefix.mpr (h.map _)

theorem proven_subset (h : s.examined <:+ s'.examined) : s.proven ⊆ s'.proven :=
  fun _ hv => mem_proven.mpr (h.subset (mem_proven.mp hv))

theorem IsDistinct.pairwise_proven (h : s.IsDistinct) :
    s.proven.Pairwise fun v w => compare v w = .lt := by
  have horder : s.order.Nodup := h.nodup.sublist (List.sublist_append_left _ _)
  have hnodup : s.proven.Nodup := (List.mergeSort_perm _ _).nodup_iff.mpr
    ((List.nodup_reverse.mp horder).sublist (List.filter_sublist.map _))
  refine ((pairwise_mergeSort_compare _).and hnodup).imp fun {v w} ⟨hle, hne⟩ => ?_
  cases hvw : compare v w with
  | lt => rfl
  | eq => exact absurd (Std.LawfulEqCmp.eq_of_compare hvw) hne
  | gt =>
      rw [hvw] at hle
      cases hle

theorem size_seen_next_le {most : ℕ} (s : Search) :
    (next actions most s).seen.size ≤ max s.seen.size most := by
  refine next_induction (Q := fun s' => s'.seen.size ≤ max s.seen.size most) (le_max_left _ _)
    (fun _ _ _ => le_max_left _ _) fun _ _ _ _ w _ s' hs' => ?_
  rw [accept]
  split
  next h =>
    have hlt : s'.seen.size < most := Nat.cast_lt.mp (of_decide_eq_true (Bool.and_eq_true_iff.mp h).1)
    exact Std.HashSet.size_insert_le.trans (hlt.trans_le (le_max_right _ _))
  next => exact hs'

/-- Candidates that belong to a finite set are not more than its elements. -/
theorem Considers.size_seen_le {S : Finset Invariant} (h : s.Considers (· ∈ S)) :
    s.seen.size ≤ S.card := by
  have hnodup : s.seen.toList.Nodup := Std.HashSet.distinct_toList.imp fun h => ne_of_beq_false h
  rw [← Std.HashSet.length_toList, ← List.toFinset_card_of_nodup hnodup]
  refine Finset.card_le_card fun v hv => h.seen v ?_
  exact Std.HashSet.mem_toList.mp (List.mem_toFinset.mp hv)

end Search

section Task

open Search

variable {t : Task} {argumentsOf : Nat → List (List String)} {m n : ℕ∞} {s s' : Search}
  {v : Invariant}

theorem considers_start (t : Task) : (start t).Considers (IsPossible t) := by
  refine ⟨fun v hv => isPossible_of_mem_initialCandidates ?_,
    fun v hv => isPossible_of_mem_initialCandidates hv, nofun⟩
  simpa using Std.HashSet.mem_ofList.mp hv

theorem considers_iterate (k : ℕ) :
    ((next (BalancedAction.ofTask t argumentsOf) m)^[k] (start t)).Considers (IsPossible t) :=
  iterate_induction (considers_start t)
    (fun _ hs => hs.next fun _ _ hv hrefined _ hw => hv.of_violation? hrefined hw) k

theorem nodup_initialCandidates (h : (t.predicates.map (·.name)).Nodup) :
    (initialCandidates t).Nodup := by
  have hsingle : ∀ p : InvariantPart, (ofParts [p]).parts = [p] := fun p =>
    List.mergeSort_singleton p
  refine List.nodup_flatMap.mpr ⟨fun q _ => ?_, ?_⟩
  · refine List.Nodup.map (fun i j hij => ?_) ?_
    · have hparts := congrArg parts hij
      rw [hsingle, hsingle, List.singleton_inj] at hparts
      exact (InvariantPart.mk.inj hparts).2.2
    · refine List.nodup_cons.mpr ⟨by simp, List.nodup_range.map (Option.some_injective _)⟩
  · have hnames := (List.pairwise_map.mp h).filter fun q =>
      decide (.named q.name ∈ t.actions.flatMap fun a => a.effects.map (·.literal.atom.predicate))
    refine hnames.imp fun {q r} hne v hq hr => hne ?_
    obtain ⟨i, -, rfl⟩ := List.mem_map.mp hq
    obtain ⟨j, -, heq⟩ := List.mem_map.mp hr
    have hparts := congrArg parts heq
    rw [hsingle, hsingle, List.singleton_inj] at hparts
    exact (Predicate.named.inj (InvariantPart.mk.inj hparts).1).symm

theorem isDistinct_start (h : (t.predicates.map (·.name)).Nodup) : (start t).IsDistinct := by
  refine ⟨nodup_initialCandidates h, fun v hv => ?_⟩
  exact Std.HashSet.mem_ofList.mpr (List.contains_iff_mem.mpr hv)

/-- The search for the invariants of a task ends in a state: candidate after candidate is examined
until none is left. -/
def EndsIn (t : Task) (argumentsOf : Nat → List (List String)) (most : ℕ∞) (s : Search) : Prop :=
  s.queue = [] ∧ ∃ k, s = (next (BalancedAction.ofTask t argumentsOf) most)^[k] (start t)

theorem EndsIn.eq_iterate (h : EndsIn t argumentsOf m s) :
    ∃ k, ∀ i, s = (next (BalancedAction.ofTask t argumentsOf) m)^[i + k] (start t) := by
  obtain ⟨hqueue, k, hk⟩ := h
  refine ⟨k, fun i => ?_⟩
  rw [Function.iterate_add_apply, ← hk, Function.iterate_fixed (next_of_nil hqueue)]

theorem EndsIn.unique (h : EndsIn t argumentsOf m s) (h' : EndsIn t argumentsOf m s') : s' = s := by
  obtain ⟨k, hk⟩ := h.eq_iterate
  obtain ⟨k', hk'⟩ := h'.eq_iterate
  rw [hk k', hk' k, Nat.add_comm]

/-- Only finitely many candidates can come up, so that also a search without a bound ends. -/
theorem exists_endsIn (t : Task) (argumentsOf : Nat → List (List String)) (most : ℕ∞) :
    ∃ s, EndsIn t argumentsOf most s := by
  have hfinite := finite_isPossible t
  have hseen : ∀ k, ((next (BalancedAction.ofTask t argumentsOf) most)^[k] (start t)).seen.size ≤
      hfinite.toFinset.card := fun k =>
    Considers.size_seen_le (by simpa using considers_iterate (m := most) k)
  exact ⟨_, queue_eq_nil hseen (Nat.le_add_right _ _), _, rfl⟩

/-- The steps that are granted to a search with a bound take it to its end in time. -/
theorem EndsIn.gives_find {most : ℕ} (h : EndsIn t argumentsOf most s) {maxTime : Duration}
    {searchTime : ℕ → Duration} (htime : ∀ n, searchTime n ≤ maxTime) :
    (find t argumentsOf most maxTime (.unlimited searchTime)).Gives s.proven := by
  obtain ⟨s', hs'⟩ := exists_gives_run searchTime (BalancedAction.ofTask t argumentsOf) most
    maxTime ((start t).queue.length + most) (start t)
  obtain ⟨k, -, hrun, hk⟩ := eq_of_yields_run hs'.yields
  obtain rfl := hk htime
  have hseen : ∀ k, ((next (BalancedAction.ofTask t argumentsOf) most)^[k] (start t)).seen.size ≤
      max (start t).seen.size most := fun k =>
    iterate_induction (Q := fun s => s.seen.size ≤ max (start t).seen.size most) (le_max_left _ _)
      (fun s hs => (size_seen_next_le s).trans (max_le hs (le_max_right _ _))) k
  have hend : EndsIn t argumentsOf most s' :=
    ⟨hrun ▸ queue_eq_nil hseen (by omega), _, hrun⟩
  obtain rfl := h.unique hend
  exact Search.gives_find hs'

/-- What is examined in a number of steps is examined until the end. -/
theorem EndsIn.suffix_of_iterate (h : EndsIn t argumentsOf m s) (k : ℕ) :
    ((next (BalancedAction.ofTask t argumentsOf) m)^[k] (start t)).examined <:+ s.examined := by
  obtain ⟨l, hl⟩ := h.eq_iterate
  rw [hl k, Nat.add_comm, Function.iterate_add_apply]
  generalize (next (BalancedAction.ofTask t argumentsOf) m)^[k] (start t) = s'
  exact iterate_induction (Q := fun s'' => s'.examined <:+ s''.examined) List.suffix_rfl
    (fun s'' hs'' => hs''.trans (examined_next s'')) l

/-- A search whose time is up has examined the first candidates. -/
theorem EndsIn.exists_gives_find {most : ℕ} (h : EndsIn t argumentsOf most s) (maxTime : Duration)
    (searchTime : ℕ → Duration) : ∃ s' : Search, s'.examined <:+ s.examined ∧
      (find t argumentsOf most maxTime (.unlimited searchTime)).Gives s'.proven := by
  obtain ⟨s', hs'⟩ := exists_gives_run searchTime (BalancedAction.ofTask t argumentsOf) most
    maxTime ((start t).queue.length + most) (start t)
  obtain ⟨k, -, rfl, -⟩ := eq_of_yields_run hs'.yields
  exact ⟨_, h.suffix_of_iterate k, Search.gives_find hs'⟩

theorem EndsIn.examined_suffix (hmn : m ≤ n) (h : EndsIn t argumentsOf m s)
    (h' : EndsIn t argumentsOf n s') : s.examined <:+ s'.examined := by
  obtain ⟨k, hk⟩ := h.eq_iterate
  obtain ⟨k', hk'⟩ := h'.eq_iterate
  have hcut : IsCutOff m ((next (BalancedAction.ofTask t argumentsOf) m)^[k' + k] (start t)) _ ∨ _ :=
    isCutOff_or_ended hmn (k' + k)
  rw [← hk k', Nat.add_comm, ← hk' k] at hcut
  rcases hcut with (_ | ⟨-, hexamined, -⟩) | ⟨-, hsuffix⟩
  · exact List.suffix_rfl
  · exact hexamined ▸ List.suffix_rfl
  · exact hsuffix

theorem EndsIn.considers (h : EndsIn t argumentsOf m s) : s.Considers (IsPossible t) := by
  obtain ⟨-, k, rfl⟩ := h
  exact considers_iterate k

theorem EndsIn.isDistinct (ht : t.DeclaresEffects) (h : EndsIn t argumentsOf m s) :
    s.IsDistinct := by
  obtain ⟨-, k, rfl⟩ := h
  exact iterate_induction (isDistinct_start ht.predicates) (fun _ hs => hs.next) k

/-- Each search ends, with a bound on the number of candidates or without one (`⊤`), and the
invariants that are found are those that were proven until then, in as much time as it takes. When
the time is up before, they are those that were proven among the first candidates. With a smaller
bound the candidates that are examined are a prefix. Each of them has one part for a predicate, all
with as many parameters, and a part uses the positions of its predicate. No invariant is found
twice. -/
theorem search_ends_and_bound_cuts_off (t : Task) (argumentsOf : Nat → List (List String)) :
    (∀ most : ℕ∞, ∃! s, EndsIn t argumentsOf most s) ∧
    (∀ (most : ℕ) s, EndsIn t argumentsOf most s → ∀ maxTime searchTime,
      ((∀ n, searchTime n ≤ maxTime) →
        (find t argumentsOf most maxTime (.unlimited searchTime)).Gives s.proven) ∧
      ∃ s' : Search, s'.order <+: s.order ∧ s'.proven ⊆ s.proven ∧
        (find t argumentsOf most maxTime (.unlimited searchTime)).Gives s'.proven) ∧
    (∀ m n s s', m ≤ n → EndsIn t argumentsOf m s → EndsIn t argumentsOf n s' →
      s.order <+: s'.order ∧ s.proven ⊆ s'.proven) ∧
    (∀ most s, EndsIn t argumentsOf most s → ∀ v ∈ s.order, v.IsCandidate) ∧
    (t.DeclaresEffects → ∀ most s, EndsIn t argumentsOf most s →
      (s.proven.Pairwise fun v w => compare v w = .lt) ∧
      ∀ v ∈ s.order, ∀ p ∈ v.parts, ∃ n, t.HasArity p.predicate n ∧ p.UsesPositions n) := by
  refine ⟨fun most => ?_, fun most s h maxTime searchTime => ⟨h.gives_find, ?_⟩,
    fun m n s s' hmn h h' => ?_, fun most s h v hv => (h.considers.order v hv).toIsCandidate,
    fun ht most s h => ⟨?_, ?_⟩⟩
  · obtain ⟨s, hs⟩ := exists_endsIn t argumentsOf most
    exact ⟨s, hs, fun s' hs' => hs.unique hs'⟩
  · obtain ⟨s', hsuffix, hs'⟩ := h.exists_gives_find maxTime searchTime
    exact ⟨s', order_of_suffix hsuffix, proven_subset hsuffix, hs'⟩
  · have hsuffix := h.examined_suffix hmn h'
    exact ⟨order_of_suffix hsuffix, proven_subset hsuffix⟩
  · exact (h.isDistinct ht).pairwise_proven
  · exact fun v hv => (h.considers.order v hv).declared ht

/-- The unbounded search on the two places, and one that stops at the second candidate. -/
theorem travelling_search_ends : ∃ s s',
    EndsIn FactGroups.travelling FactGroups.travelling.typedArguments 1 s ∧
    EndsIn FactGroups.travelling FactGroups.travelling.typedArguments ⊤ s' ∧
    s.order <+: s'.order ∧ s'.proven.Pairwise fun v w => compare v w = .lt := by
  obtain ⟨hends, -, hcut, -, hdeclared⟩ := search_ends_and_bound_cuts_off FactGroups.travelling
    FactGroups.travelling.typedArguments
  obtain ⟨s, hs, -⟩ := hends 1
  obtain ⟨s', hs', -⟩ := hends ⊤
  exact ⟨s, s', hs, hs', (hcut 1 ⊤ s s' le_top hs hs').1,
    (hdeclared FactGroups.travelling_isNormal.declaresEffects ⊤ s' hs').1⟩

end Task
end Invariant
end FinitePlanning
