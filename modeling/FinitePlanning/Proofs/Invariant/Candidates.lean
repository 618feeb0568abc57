import Mathlib.Data.Fintype.List
import Mathlib.Data.Set.Finite.List
import FinitePlanning.Invariant.Search
import FinitePlanning.Proofs.Compilation
import FinitePlanning.Proofs.Invariant.Parts
import FinitePlanning.Proofs.Invariant.Requirements

/-!
The candidates for invariants. An initial candidate counts at most one argument of a predicate, and
a refinement relates the arguments of another predicate to the parameters in a way that uses each
position once. There are finitely many candidates for a task: each part is about a predicate that
actions modify, and its positions are those with which the predicate is declared, or used in an
effect.
-/

namespace FinitePlanning
namespace Invariant

/-- The parts of a candidate relate its parameters to different arguments of different
predicates. -/
structure IsCandidate (v : Invariant) : Prop where
  arity : ∀ p ∈ v.parts, p.arity = v.arity
  predicates : (v.parts.map (·.predicate)).Nodup
  positions : ∀ p ∈ v.parts, ∃ n, p.UsesPositions n

/-- The predicates of a candidate are those of the task, and actions modify them. -/
structure IsWellFormed (t : Task) (v : Invariant) : Prop extends IsCandidate v where
  declared : ∀ p ∈ v.parts, ∃ n, t.HasArity p.predicate n ∧ p.UsesPositions n
  modified : ∀ p ∈ v.parts, ∃ a ∈ t.actions, ∃ e ∈ a.effects,
    e.literal.atom.predicate = p.predicate

variable {t : Task} {v w : Invariant}

theorem mem_parts_ofParts {parts : List InvariantPart} {p : InvariantPart} :
    p ∈ (ofParts parts).parts ↔ p ∈ parts :=
  List.mem_mergeSort

theorem arity_ofParts {parts : List InvariantPart} {n : Nat} (h : ∀ p ∈ parts, p.arity = n) :
    ∀ p ∈ parts, p.arity = (ofParts parts).arity := by
  intro p hp
  have hne : (ofParts parts).parts ≠ [] := List.ne_nil_of_mem (mem_parts_ofParts.mpr hp)
  rw [h p hp, Invariant.arity, List.head?_eq_some_head hne]
  exact (h _ (mem_parts_ofParts.mp (List.head_mem hne))).symm

theorem isCandidate_ofParts {parts : List InvariantPart} {n : Nat}
    (harity : ∀ p ∈ parts, p.arity = n) (hpredicates : (parts.map (·.predicate)).Nodup)
    (hpositions : ∀ p ∈ parts, ∃ n, p.UsesPositions n) : (ofParts parts).IsCandidate where
  arity p hp := arity_ofParts harity p (mem_parts_ofParts.mp hp)
  predicates := (((List.mergeSort_perm parts _).map _).nodup_iff).mpr hpredicates
  positions p hp := hpositions p (mem_parts_ofParts.mp hp)

theorem mem_parts_withPart {p q : InvariantPart} :
    p ∈ (v.withPart q).parts ↔ p ∈ v.parts ∨ p = q := by
  rw [withPart, mem_parts_ofParts, List.mem_append, List.mem_singleton]

theorem IsCandidate.withPart (hv : v.IsCandidate) {q : InvariantPart}
    (harity : q.arity = v.arity) (hnew : q.predicate ∉ v.parts.map (·.predicate)) {n : Nat}
    (hpositions : q.UsesPositions n) : (v.withPart q).IsCandidate := by
  refine isCandidate_ofParts (n := v.arity) ?_ ?_ ?_
  · rw [List.forall_mem_append, List.forall_mem_singleton]
    exact ⟨hv.arity, harity⟩
  · rw [List.map_append, List.map_singleton]
    exact List.nodup_append.mpr ⟨hv.predicates, List.nodup_singleton _,
      fun x hx y hy hxy => hnew (List.mem_singleton.mp hy ▸ hxy ▸ hx)⟩
  · rw [List.forall_mem_append, List.forall_mem_singleton]
    exact ⟨hv.positions, n, hpositions⟩

/-- All positions but the omitted one, if there is one. -/
theorem usesPositions_of_omitted {predicate : Predicate} {n : Nat} {omitted : Option Nat}
    (h : omitted ∈ none :: (List.range n).map some) :
    (⟨predicate, (List.range n).filter (some · != omitted), omitted⟩ :
      InvariantPart).UsesPositions n := by
  rw [InvariantPart.UsesPositions]
  rcases List.mem_cons.mp h with rfl | h
  · rw [List.filter_eq_self.mpr (by simp)]
    simp
  · obtain ⟨i, hi, rfl⟩ := List.mem_map.mp h
    refine (List.perm_ext_iff_of_nodup ?_ List.nodup_range).mpr fun j => ?_
    · simp [List.nodup_append, List.nodup_range.filter]
    · by_cases hj : j = i
      · simp [hj, List.mem_range.mp hi]
      · simp [hj]

theorem exists_of_mem_initialCandidates (h : v ∈ initialCandidates t) :
    ∃ p : InvariantPart, v = ofParts [p] ∧ (∃ n, t.HasArity p.predicate n ∧ p.UsesPositions n) ∧
      ∃ a ∈ t.actions, ∃ e ∈ a.effects, e.literal.atom.predicate = p.predicate := by
  simp only [initialCandidates, List.mem_flatMap, List.mem_filter, decide_eq_true_eq,
    List.mem_map] at h
  obtain ⟨q, ⟨hq, hmodified⟩, omitted, homitted, rfl⟩ := h
  exact ⟨_, rfl, ⟨q.arity, ⟨q, hq, rfl, rfl⟩, usesPositions_of_omitted homitted⟩, hmodified⟩

theorem isWellFormed_of_mem_initialCandidates (h : v ∈ initialCandidates t) :
    v.IsWellFormed t := by
  obtain ⟨p, rfl, ⟨n, hn, hpositions⟩, hmodified⟩ := exists_of_mem_initialCandidates h
  refine ⟨isCandidate_ofParts (n := p.arity) ?_ (List.nodup_singleton _) ?_, fun q hq => ?_,
    fun q hq => ?_⟩
  · simp
  · simpa using ⟨n, hpositions⟩
  · obtain rfl := List.mem_singleton.mp (mem_parts_ofParts.mp hq)
    exact ⟨n, hn, hpositions⟩
  · obtain rfl := List.mem_singleton.mp (mem_parts_ofParts.mp hq)
    exact hmodified

/-- A refinement adds a part that corresponds to a deletion of a further predicate. -/
theorem exists_of_mem_refinements {a : Action} {addition : Effect}
    (h : w ∈ v.refinements a addition) :
    ∃ p ∈ v.parts, ∃ d ∈ a.effects, ∃ q, w = v.withPart q ∧
      q.predicate ∉ v.parts.map (·.predicate) ∧ p.Corresponds addition.literal d.literal q := by
  rw [refinements] at h
  split at h
  next => cases h
  next p hp =>
    obtain ⟨d, hd, h⟩ := List.mem_flatMap.mp h
    obtain ⟨q, hq, rfl⟩ := List.mem_map.mp h
    simp only [List.mem_filter, Bool.and_eq_true, Bool.not_eq_true'] at hd
    obtain ⟨hd, -, hnew⟩ := hd
    have hcorresponds := InvariantPart.corresponds_of_mem hq
    refine ⟨p, List.mem_of_find?_eq_some hp, d, hd, q, rfl, ?_, hcorresponds⟩
    rw [hcorresponds.predicate]
    simpa [concerns, part?, List.find?_isSome] using hnew

theorem IsCandidate.of_mem_refinements (hv : v.IsCandidate) {a : Action} {addition : Effect}
    (h : w ∈ v.refinements a addition) : w.IsCandidate := by
  obtain ⟨p, hp, d, -, q, rfl, hnew, hq⟩ := exists_of_mem_refinements h
  exact hv.withPart (hq.arity.trans (hv.arity p hp)) hnew hq.positions

/-- A candidate stays well-formed when a part for a deletion is added. -/
theorem IsWellFormed.of_mem_refinements (ht : t.IsNormal) (hv : v.IsWellFormed t) {a a' : Action}
    (ha : a ∈ t.actions) (heffects : a'.effects = a.effects) {addition : Effect}
    (h : w ∈ v.refinements a' addition) : w.IsWellFormed t := by
  have hcandidate := hv.toIsCandidate.of_mem_refinements h
  obtain ⟨p, -, d, hd, q, rfl, -, hq⟩ := exists_of_mem_refinements h
  rw [heffects] at hd
  constructor
  case toIsCandidate => exact hcandidate
  case declared =>
    intro r hr
    rcases mem_parts_withPart.mp hr with hr | rfl
    · exact hv.declared r hr
    · exact ⟨_, hq.predicate ▸ ((ht.actions a ha).effects d hd).literal.arity, hq.positions⟩
  case modified =>
    intro r hr
    rcases mem_parts_withPart.mp hr with hr | rfl
    · exact hv.modified r hr
    · exact ⟨a, ha, d, hd, hq.predicate.symm⟩

theorem exists_of_violation? {argumentsOf : Nat → List (List String)} {refined : List Invariant}
    (h : v.violation? (BalancedAction.ofTask t argumentsOf) = some refined) (hw : w ∈ refined) :
    ∃ a ∈ t.actions, ∃ instances addition,
      w ∈ v.refinements (a.withInequalities instances) addition := by
  obtain ⟨b, hb, h⟩ := List.exists_of_findSome?_eq_some h
  obtain ⟨⟨a, i⟩, ha, rfl⟩ := List.mem_map.mp (List.mem_filter.mp hb).1
  dsimp only at h
  split at h
  next =>
    obtain rfl := Option.some.inj h
    cases hw
  next =>
    obtain ⟨e, -, h⟩ := List.exists_of_findSome?_eq_some h
    simp only [unbalancedAddition?, Option.bind_eq_bind, Option.bind_eq_some_iff] at h
    obtain ⟨-, -, h⟩ := h
    cases h
    exact ⟨a, List.mem_of_getElem? (List.mem_zipIdx_iff_getElem?.mp ha), argumentsOf i, e, hw⟩

section Search

variable {P : Invariant → Prop} {actions : List BalancedAction}

/-- What holds of the candidates throughout the search. -/
structure Search.Satisfies (P : Invariant → Prop) (actions : List BalancedAction) (s : Search) :
    Prop where
  queue : ∀ v ∈ s.queue, P v
  examined : ∀ v, (v, true) ∈ s.examined → P v ∧ v.violation? actions = none

theorem Search.Satisfies.enqueue {most : Nat} {s : Search} (hs : s.Satisfies P actions)
    (hv : P v) : (enqueue most s v).Satisfies P actions := by
  rw [Search.enqueue]
  split
  next =>
    refine ⟨fun w hw => ?_, hs.examined⟩
    rcases List.mem_append.mp hw with hw | hw
    · exact hs.queue w hw
    · exact List.mem_singleton.mp hw ▸ hv
  next => exact hs

variable (hrefine : ∀ v refined, P v → v.violation? actions = some refined → ∀ w ∈ refined, P w)
include hrefine

theorem Search.Satisfies.examine {most : Nat} {s : Search} (hs : s.Satisfies P actions)
    (hv : P v) : (examine actions most s v).Satisfies P actions := by
  rw [Search.examine]
  split
  next hpass =>
    refine ⟨hs.queue, fun w hw => ?_⟩
    rcases List.mem_cons.mp hw with hw | hw
    · obtain rfl := congrArg Prod.fst hw
      exact ⟨hv, hpass⟩
    · exact hs.examined w hw
  next refined hfail =>
    have hstart : Satisfies P actions { s with examined := (v, false) :: s.examined } := by
      refine ⟨hs.queue, fun w hw => ?_⟩
      rcases List.mem_cons.mp hw with hw | hw
      · cases hw
      · exact hs.examined w hw
    have hrefined := hrefine v refined hv hfail
    generalize ({ s with examined := (v, false) :: s.examined } : Search) = s' at hstart
    clear hfail
    induction refined generalizing s' with
    | nil => exact hstart
    | cons w refined ih =>
        rw [List.forall_mem_cons] at hrefined
        exact ih hrefined.2 _ (hstart.enqueue hrefined.1)

theorem Search.Satisfies.of_run {budget : Budget} {most fuel : Nat} {maxTime : Duration}
    {s s' : Search} (hs : s.Satisfies P actions)
    (h : (run budget actions most maxTime fuel s).Yields s') : s'.Satisfies P actions := by
  induction fuel generalizing s with
  | zero => exact Compilation.yields_pure h ▸ hs
  | succ fuel ih =>
      rw [run] at h
      split at h
      next => exact Compilation.yields_pure h ▸ hs
      next v queue hqueue =>
        obtain ⟨-, -, h⟩ := Compilation.yields_bind h
        split at h
        · obtain ⟨-, -, h⟩ := Compilation.yields_bind h
          exact Compilation.yields_pure h ▸ hs
        · have htail : Satisfies P actions { s with queue } :=
            ⟨fun w hw => hs.queue w (hqueue ▸ List.mem_cons_of_mem v hw), hs.examined⟩
          exact ih (htail.examine hrefine (hs.queue v (hqueue ▸ List.mem_cons_self))) h

end Search

section Find

variable {argumentsOf : Nat → List (List String)} {most : Nat} {maxTime : Duration}
  {budget : Budget} {found : List Invariant}

/-- What holds of the initial candidates and stays so when candidates are refined holds
of the invariants that are found, and these passed the test. -/
theorem forall_of_find {P : Invariant → Prop} (hinitial : ∀ v ∈ initialCandidates t, P v)
    (hrefine : ∀ v, P v → ∀ a ∈ t.actions, ∀ instances addition,
      ∀ w ∈ v.refinements (a.withInequalities instances) addition, P w)
    (h : (find t argumentsOf most maxTime budget).Yields found) :
    ∀ v ∈ found, P v ∧ v.violation? (BalancedAction.ofTask t argumentsOf) = none := by
  obtain ⟨-, -, h⟩ := Compilation.yields_bind h
  obtain ⟨s, hs, h⟩ := Compilation.yields_bind h
  obtain ⟨-, -, h⟩ := Compilation.yields_bind h
  obtain rfl := Compilation.yields_pure h
  have hstart : (Search.start t).Satisfies P (BalancedAction.ofTask t argumentsOf) :=
    ⟨hinitial, nofun⟩
  have hsound := hstart.of_run (fun v refined hv hfail w hw => by
    obtain ⟨a, ha, instances, addition, hw⟩ := exists_of_violation? hfail hw
    exact hrefine v hv a ha instances addition w hw) hs
  intro v hv
  rw [Search.proven, List.mem_mergeSort] at hv
  obtain ⟨⟨w, passed⟩, hw, rfl⟩ := List.mem_map.mp hv
  obtain ⟨hw, rfl⟩ := List.mem_filter.mp hw
  exact hsound.examined w hw

/-- The invariants that are found are well-formed and passed the test. -/
theorem of_find (ht : t.IsNormal) (h : (find t argumentsOf most maxTime budget).Yields found) :
    ∀ v ∈ found, v.IsWellFormed t ∧
      v.violation? (BalancedAction.ofTask t argumentsOf) = none :=
  forall_of_find (fun _ hv => isWellFormed_of_mem_initialCandidates hv)
    (fun _ hv a ha instances _ _ hw =>
      hv.of_mem_refinements ht ha (a.effects_withInequalities instances) hw) h

theorem isCandidate_of_find (h : (find t argumentsOf most maxTime budget).Yields found) :
    ∀ v ∈ found, v.IsCandidate := fun v hv =>
  (forall_of_find (fun _ hv => (isWellFormed_of_mem_initialCandidates hv).toIsCandidate)
    (fun _ hv _ _ _ _ _ hw => hv.of_mem_refinements hw) h v hv).1

end Find

/-! ### Search without other limits -/

section Run

variable {actions : List BalancedAction} {most fuel : Nat} {maxTime : Duration}
  {searchTime : Nat → Duration} {s s' : Search} {queue : List Invariant}

theorem Search.gives_run_of_nil (h : s.queue = []) :
    (run (.unlimited searchTime) actions most maxTime fuel s).Gives s := by
  cases fuel with
  | zero => exact Compilation.gives_pure s
  | succ fuel =>
      rw [run]
      simp only [h]
      exact Compilation.gives_pure s

/-- When the time is up the search ends. -/
theorem Search.gives_run_of_lt (h : maxTime < searchTime s.examined.length) :
    (run (.unlimited searchTime) actions most maxTime fuel s).Gives s := by
  cases hqueue : s.queue with
  | nil => exact gives_run_of_nil hqueue
  | cons v queue =>
      cases fuel with
      | zero => exact Compilation.gives_pure s
      | succ fuel =>
          rw [run]
          simp only [hqueue]
          refine Budget.gives_tick_unlimited.bind ?_
          rw [Budget.searchTime_unlimited, if_pos h]
          exact (Compilation.gives_log _ _).bind (Compilation.gives_pure s)

theorem Search.gives_run_of_cons (hqueue : s.queue = v :: queue)
    (htime : searchTime s.examined.length ≤ maxTime)
    (h : (run (.unlimited searchTime) actions most maxTime fuel
      (examine actions most { s with queue } v)).Gives s') :
    (run (.unlimited searchTime) actions most maxTime (fuel + 1) s).Gives s' := by
  rw [run]
  simp only [hqueue]
  refine Budget.gives_tick_unlimited.bind ?_
  rw [Budget.searchTime_unlimited, if_neg (Nat.not_lt_of_le htime)]
  exact h

theorem Search.exists_gives_run (searchTime : Nat → Duration) (actions : List BalancedAction)
    (most : Nat) (maxTime : Duration) (fuel : Nat) (s : Search) :
    ∃ s', (run (.unlimited searchTime) actions most maxTime fuel s).Gives s' := by
  induction fuel generalizing s with
  | zero => exact ⟨s, Compilation.gives_pure s⟩
  | succ fuel ih =>
      cases hqueue : s.queue with
      | nil => exact ⟨s, gives_run_of_nil hqueue⟩
      | cons v queue =>
          rcases Nat.lt_or_ge maxTime (searchTime s.examined.length) with htime | htime
          · exact ⟨s, gives_run_of_lt htime⟩
          · obtain ⟨s', hs'⟩ := ih (examine actions most { s with queue } v)
            exact ⟨s', gives_run_of_cons hqueue htime hs'⟩

/-- A search only depends on when its time is up. -/
theorem Search.run_congr {searchTime' : Nat → Duration}
    (h : ∀ n, maxTime < searchTime n ↔ maxTime < searchTime' n) :
    run (.unlimited searchTime) actions most maxTime fuel s =
      run (.unlimited searchTime') actions most maxTime fuel s := by
  induction fuel generalizing s with
  | zero => rfl
  | succ fuel ih =>
      rw [run, run]
      cases s.queue with
      | nil => rfl
      | cons v queue =>
          simp only [Budget.searchTime_unlimited, h, ih]
          rfl

end Run

theorem find_congr {t : Task} {argumentsOf : Nat → List (List String)} {most : Nat}
    {maxTime : Duration} {searchTime searchTime' : Nat → Duration}
    (h : ∀ n, maxTime < searchTime n ↔ maxTime < searchTime' n) :
    find t argumentsOf most maxTime (.unlimited searchTime) =
      find t argumentsOf most maxTime (.unlimited searchTime') := by
  rw [find, find]
  simp only [Search.run_congr h]

theorem Search.gives_find {t : Task} {argumentsOf : Nat → List (List String)} {most : Nat}
    {maxTime : Duration} {searchTime : Nat → Duration} {s : Search}
    (h : (run (.unlimited searchTime) (BalancedAction.ofTask t argumentsOf) most maxTime
      ((start t).queue.length + most) (start t)).Gives s) :
    (find t argumentsOf most maxTime (.unlimited searchTime)).Gives s.proven :=
  (Compilation.gives_log _ _).bind
    (h.bind ((Compilation.gives_log _ _).bind (Compilation.gives_pure _)))

theorem exists_gives_find (t : Task) (argumentsOf : Nat → List (List String)) (most : Nat)
    (maxTime : Duration) (searchTime : Nat → Duration) :
    ∃ invariants, (find t argumentsOf most maxTime (.unlimited searchTime)).Gives invariants := by
  obtain ⟨s, hs⟩ := Search.exists_gives_run searchTime (BalancedAction.ofTask t argumentsOf) most
    maxTime ((Search.start t).queue.length + most) (Search.start t)
  exact ⟨s.proven, Search.gives_find hs⟩

end Invariant

/-- Lists without repetition of elements of a finite set. -/
theorem finite_nodup_lists {α : Type} {S : Set α} (hS : S.Finite) :
    {l : List α | l.Nodup ∧ ∀ a ∈ l, a ∈ S}.Finite := by
  have : Finite S := hS
  have : Fintype S := Fintype.ofFinite S
  classical
  refine (Set.finite_range fun l : { l : List S // l.Nodup } => l.1.map Subtype.val).subset ?_
  rintro l ⟨hnodup, hmem⟩
  have hinj : Function.Injective fun a : { a // a ∈ l } => (⟨a.1, hmem a.1 a.2⟩ : S) :=
    fun a b h => Subtype.ext (Subtype.mk.inj h)
  exact ⟨⟨l.attach.map _, (List.nodup_attach.mpr hnodup).map hinj⟩,
    List.map_map.trans (List.attach_map_subtype_val l)⟩

namespace InvariantPart

variable {p q : InvariantPart}

/-- A part is given by its predicate and the list of its positions, and by whether the last one of
these is counted. -/
theorem eq_of_positions (hpredicate : p.predicate = q.predicate)
    (hpositions : p.order ++ p.omitted.toList = q.order ++ q.omitted.toList)
    (homitted : p.omitted.isSome = q.omitted.isSome) : p = q := by
  obtain ⟨predicate, order, omitted⟩ := p
  obtain ⟨predicate', order', omitted'⟩ := q
  dsimp only at hpredicate hpositions homitted
  cases omitted with
  | none =>
      obtain rfl : omitted' = none := by simpa using homitted.symm
      rw [hpredicate, List.append_cancel_right hpositions]
  | some i =>
      obtain ⟨j, rfl⟩ : ∃ j, omitted' = some j := Option.isSome_iff_exists.mp homitted.symm
      obtain ⟨horder, hij⟩ := List.append_inj' hpositions rfl
      rw [hpredicate, horder, List.singleton_inj.mp hij]

theorem finite_usesPositions (predicate : Predicate) (n : Nat) :
    {p : InvariantPart | p.predicate = predicate ∧ p.UsesPositions n}.Finite := by
  refine Set.Finite.of_finite_image (f := fun p => (p.order ++ p.omitted.toList, p.omitted.isSome))
    ?_ fun p hp q hq h => ?_
  · refine ((List.finite_toSet (List.range n).permutations).prod (Set.toFinite Set.univ)).subset ?_
    rintro _ ⟨p, ⟨-, hp⟩, rfl⟩
    exact ⟨List.mem_permutations.mpr hp, Set.mem_univ _⟩
  · rw [Prod.mk.injEq] at h
    exact eq_of_positions (hp.1.trans hq.1.symm) h.1 h.2

end InvariantPart

namespace Task

variable {t : Task} {p : Predicate} {m n : Nat}

/-- Predicates are declared once, and effects have the arguments that are declared. -/
structure DeclaresEffects (t : Task) : Prop where
  predicates : (t.predicates.map (·.name)).Nodup
  effects : ∀ a ∈ t.actions, ∀ e ∈ a.effects,
    t.HasArity e.literal.atom.predicate e.literal.atom.args.length

theorem IsNormal.declaresEffects (h : t.IsNormal) : t.DeclaresEffects where
  predicates := h.predicates
  effects a ha e he := ((h.actions a ha).effects e he).literal.arity

/-- A predicate is declared with some arguments, or an effect on it has that many. -/
def UsesArity (t : Task) (p : Predicate) (n : Nat) : Prop :=
  t.HasArity p n ∨ ∃ a ∈ t.actions, ∃ e ∈ a.effects,
    e.literal.atom.predicate = p ∧ e.literal.atom.args.length = n

theorem DeclaresEffects.hasArity (ht : t.DeclaresEffects) (h : t.UsesArity p n) :
    t.HasArity p n := by
  rcases h with h | ⟨a, ha, e, he, rfl, rfl⟩
  · exact h
  · exact ht.effects a ha e he

theorem finite_hasArity (t : Task) (p : Predicate) : {n | t.HasArity p n}.Finite := by
  cases p with
  | named name =>
      refine (List.finite_toSet (t.predicates.map (·.arity))).subset ?_
      rintro n ⟨q, hq, -, rfl⟩
      exact List.mem_map_of_mem hq
  | type name => exact Set.finite_singleton 1
  | equal => exact Set.finite_singleton 2

theorem finite_usesArity (t : Task) (p : Predicate) : {n | t.UsesArity p n}.Finite := by
  refine ((t.finite_hasArity p).union (List.finite_toSet ((t.actions.flatMap (·.effects)).map
    (·.literal.atom.args.length)))).subset ?_
  rintro n (h | ⟨a, ha, e, he, -, rfl⟩)
  · exact .inl h
  · exact .inr (List.mem_map.mpr ⟨e, List.mem_flatMap.mpr ⟨a, ha, he⟩, rfl⟩)

end Task

namespace Invariant

variable {t : Task} {v w : Invariant}

/-- A part that the search may give to a candidate. -/
def MayHavePart (t : Task) (p : InvariantPart) : Prop :=
  (∃ a ∈ t.actions, ∃ e ∈ a.effects, e.literal.atom.predicate = p.predicate) ∧
    ∃ n, t.UsesArity p.predicate n ∧ p.UsesPositions n

/-- What all candidates of the search have in common. -/
structure IsPossible (t : Task) (v : Invariant) : Prop extends IsCandidate v where
  parts : ∀ p ∈ v.parts, MayHavePart t p

/-- The parts of a candidate use the positions of their predicates. -/
theorem IsPossible.declared (h : v.IsPossible t) (ht : t.DeclaresEffects) :
    ∀ p ∈ v.parts, ∃ n, t.HasArity p.predicate n ∧ p.UsesPositions n := by
  intro p hp
  obtain ⟨n, hn, hpositions⟩ := (h.parts p hp).2
  exact ⟨n, ht.hasArity hn, hpositions⟩

theorem finite_mayHavePart (t : Task) : {p | MayHavePart t p}.Finite := by
  have hpredicates := List.finite_toSet ((t.actions.flatMap (·.effects)).map
    (·.literal.atom.predicate))
  refine (hpredicates.biUnion fun predicate _ => (t.finite_usesArity predicate).biUnion fun n _ =>
    InvariantPart.finite_usesPositions predicate n).subset ?_
  rintro p ⟨⟨a, ha, e, he, hpredicate⟩, n, hn, hp⟩
  simp only [Set.mem_iUnion]
  exact ⟨p.predicate, List.mem_map.mpr ⟨e, List.mem_flatMap.mpr ⟨a, ha, he⟩, hpredicate⟩, n, hn,
    rfl, hp⟩

theorem finite_isPossible (t : Task) : {v | IsPossible t v}.Finite := by
  refine Set.Finite.of_finite_image (f := parts) ?_ fun v _ w _ h => congrArg mk h
  refine (finite_nodup_lists (finite_mayHavePart t)).subset ?_
  rintro _ ⟨v, hv, rfl⟩
  exact ⟨List.Nodup.of_map _ hv.predicates, hv.parts⟩

theorem isPossible_of_mem_initialCandidates (h : v ∈ initialCandidates t) : v.IsPossible t := by
  have hv := isWellFormed_of_mem_initialCandidates h
  refine ⟨hv.toIsCandidate, fun p hp => ⟨hv.modified p hp, ?_⟩⟩
  obtain ⟨n, hn, hpositions⟩ := hv.declared p hp
  exact ⟨n, .inl hn, hpositions⟩

theorem IsPossible.of_mem_refinements (hv : v.IsPossible t) {a a' : Action} (ha : a ∈ t.actions)
    (heffects : a'.effects = a.effects) {addition : Effect} (h : w ∈ v.refinements a' addition) :
    w.IsPossible t := by
  refine ⟨hv.toIsCandidate.of_mem_refinements h, fun r hr => ?_⟩
  obtain ⟨p, -, d, hd, q, rfl, -, hq⟩ := exists_of_mem_refinements h
  rw [heffects] at hd
  rcases mem_parts_withPart.mp hr with hr | rfl
  · exact hv.parts r hr
  · exact ⟨⟨a, ha, d, hd, hq.predicate.symm⟩, _,
      .inr ⟨a, ha, d, hd, hq.predicate.symm, rfl⟩, hq.positions⟩

/-- Refining a possible candidate gives possible candidates. -/
theorem IsPossible.of_violation? {argumentsOf : Nat → List (List String)} (hv : v.IsPossible t)
    {refined : List Invariant}
    (h : v.violation? (BalancedAction.ofTask t argumentsOf) = some refined) (hw : w ∈ refined) :
    w.IsPossible t := by
  obtain ⟨a, ha, instances, addition, hw⟩ := exists_of_violation? h hw
  exact hv.of_mem_refinements ha (a.effects_withInequalities instances) hw

end Invariant
end FinitePlanning
