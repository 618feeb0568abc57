import Mathlib.Data.List.Perm.Subperm
import FinitePlanning.Proofs.Compilation
import FinitePlanning.Proofs.Datalog.Firing

/-!
The model that is computed is the least model. An atom that is processed was matched
with all conditions that it is an instance of, so when all atoms are processed every
rule holds among them; and there are at most as many atoms as can be built from the
relations and objects of the program.
-/

namespace FinitePlanning
namespace Datalog

/-- The atoms of a program have relations and objects of its table, and a relation
always takes the same number of arguments. -/
structure Program.IsTyped (p : Program) (arity : RelationId → Nat) : Prop where
  fact_relation : ∀ a ∈ p.facts, a.relation.index < p.symbols.relations.length
  head_relation : ∀ r ∈ p.rules, r.head.relation.index < p.symbols.relations.length
  fact_arity : ∀ a ∈ p.facts, a.args.length = arity a.relation
  rule_arity : ∀ r ∈ p.rules, ∀ q ∈ r.head :: r.body, q.args.length = arity q.relation
  fact_objects : ∀ a ∈ p.facts, ∀ o ∈ a.args, o.index < p.symbols.objects.length
  rule_objects : ∀ r ∈ p.rules, ∀ id, Term.object id ∈ r.head.args →
    id.index < p.symbols.objects.length

/-- A typed program whose rules can be matched one condition at a time. -/
structure Program.IsWellFormed (p : Program) (arity : RelationId → Nat) : Prop
    extends p.IsTyped arity where
  safe : ∀ r ∈ p.rules, r.IsSafe

namespace Program

variable {p : Program} {arity : RelationId → Nat}

theorem IsWellFormed.args_length (h : p.IsWellFormed arity) {a : GroundAtom}
    (ha : a ∈ p.meaning) : a.args.length = arity a.relation := by
  cases ha with
  | fact ha => exact h.fact_arity a ha
  | @rule r hr σ _ =>
      obtain ⟨s, hs, rfl⟩ := hr
      rw [Pattern.eval, Pattern.length_evalArgs]
      exact h.rule_arity s hs _ List.mem_cons_self

theorem IsWellFormed.relation_lt (h : p.IsWellFormed arity) {a : GroundAtom}
    (ha : a ∈ p.meaning) : a.relation.index < p.symbols.relations.length := by
  cases ha with
  | fact ha => exact h.fact_relation a ha
  | rule hr σ _ =>
      obtain ⟨s, hs, rfl⟩ := hr
      exact h.head_relation s hs

/-- The relations of facts and heads, with the number of their arguments. -/
def arities (p : Program) : List (RelationId × Nat) :=
  p.facts.map (fun a => (a.relation, a.args.length))
    ++ p.rules.map (fun r => (r.head.relation, r.head.args.length))

theorem IsWellFormed.bounded (h : p.IsWellFormed arity) {a : GroundAtom} (ha : a ∈ p.meaning) :
    (a.relation, a.args.length) ∈ p.arities ∧
      ∀ o ∈ a.args, o.index < p.symbols.objects.length := by
  have hsubset : p.meaning ⊆ {a | (a.relation, a.args.length) ∈ p.arities ∧
      ∀ o ∈ a.args, o.index < p.symbols.objects.length} := by
    refine leastModel_subset (fun a ha => ?_) ?_
    · exact ⟨List.mem_append_left _ (List.mem_map_of_mem (f := fun a : GroundAtom =>
        (a.relation, a.args.length)) ha), h.fact_objects a ha⟩
    · rintro _ ⟨r, hr, rfl⟩ σ hbody
      constructor
      · rw [Pattern.eval, Pattern.length_evalArgs]
        exact List.mem_append_right _ (List.mem_map_of_mem (f := fun r : SplitRule =>
          (r.head.relation, r.head.args.length)) hr)
      · intro o ho
        obtain ⟨term, hterm, rfl⟩ := List.mem_map.mp ho
        cases term with
        | object id => exact h.rule_objects r hr id hterm
        | «variable» v =>
            obtain ⟨q, hq, hv⟩ := (h.safe r hr).bound v (Pattern.mem_vars.mpr hterm)
            exact (hbody q hq).2 _ (List.mem_map_of_mem (f := (·.eval σ)) (Pattern.mem_vars.mp hv))
  exact hsubset ha

/-- All atoms with the relations of the program and arguments among its objects. -/
def herbrandBase (p : Program) : List GroundAtom :=
  p.arities.eraseDups.flatMap fun r => (choices (List.replicate r.2
    ((List.range p.symbols.objects.length).map ObjectId.mk))).map (GroundAtom.mk r.1)

theorem length_choices_replicate {α : Type} (n : Nat) (l : List α) :
    (choices (List.replicate n l)).length = Nat.pow l.length n := by
  induction n with
  | zero => rfl
  | succ n ih =>
      rw [List.replicate_succ, choices, List.length_flatMap]
      simp [ih, Nat.pow, Nat.mul_comm]

theorem length_herbrandBase : p.herbrandBase.length = p.atomBound := by
  rw [herbrandBase, atomBound, ← arities]
  induction p.arities.eraseDups with
  | nil => rfl
  | cons r rs ih =>
      rw [List.flatMap_cons, List.length_append, ih, List.map_cons, total_cons, List.length_map,
        length_choices_replicate]
      simp

theorem mem_herbrandBase {a : GroundAtom} (harity : (a.relation, a.args.length) ∈ p.arities)
    (hobjects : ∀ o ∈ a.args, o.index < p.symbols.objects.length) : a ∈ p.herbrandBase := by
  refine List.mem_flatMap.mpr ⟨_, List.mem_eraseDups.mpr harity,
    List.mem_map.mpr ⟨a.args, mem_choices.mpr ?_, rfl⟩⟩
  clear harity
  generalize a.args = args at hobjects
  induction args with
  | nil => exact .nil
  | cons o args ih =>
      rw [List.forall_mem_cons] at hobjects
      exact .cons (List.mem_map.mpr ⟨o.index, List.mem_range.mpr hobjects.1, rfl⟩) (ih hobjects.2)

/-- There are not more atoms in the model than the bound says. -/
theorem IsWellFormed.length_le (h : p.IsWellFormed arity) {atoms : List GroundAtom}
    (hnodup : atoms.Nodup) (hmem : ∀ a ∈ atoms, a ∈ p.meaning) : atoms.length ≤ p.atomBound := by
  rw [← length_herbrandBase]
  refine (List.subperm_of_subset hnodup fun a ha => ?_).length_le
  obtain ⟨harity, hobjects⟩ := h.bounded (hmem a ha)
  exact mem_herbrandBase harity hobjects

end Program

namespace Queue

variable {q : Queue} {a : GroundAtom}

/-- The atoms that were found, each once. -/
structure IsSet (q : Queue) : Prop where
  known : ∀ a, q.known.contains a = true ↔ a ∈ q.atoms.toList
  nodup : q.atoms.toList.Nodup

theorem isSet_empty : ({} : Queue).IsSet where
  known a := by simp
  nodup := List.nodup_nil

/-- What finding an atom does. -/
theorem isSet_push (h : q.IsSet) : (q.push a).IsSet ∧ q.atoms.toList <+: (q.push a).atoms.toList ∧
    (∀ b, b ∈ (q.push a).atoms.toList ↔ b ∈ q.atoms.toList ∨ b = a) ∧
    (q.push a).next = q.next := by
  by_cases hk : q.known.contains a = true
  · have hpush : q.push a = { q with pushes := q.pushes + 1 } := if_pos hk
    rw [hpush]
    refine ⟨⟨h.known, h.nodup⟩, List.prefix_rfl, fun b => ⟨.inl, ?_⟩, rfl⟩
    rintro (hb | rfl)
    · exact hb
    · exact (h.known b).mp hk
  · have hpush : q.push a =
        { q with pushes := q.pushes + 1, atoms := q.atoms.push a, known := q.known.insert a } :=
      if_neg hk
    have hnot : a ∉ q.atoms.toList := fun ha => hk ((h.known a).mpr ha)
    rw [hpush]
    refine ⟨⟨fun b => ?_, ?_⟩, ?_, fun b => ?_, rfl⟩
    · rw [Std.HashSet.contains_insert, Bool.or_eq_true, h.known b, Array.toList_push,
        List.mem_append, List.mem_singleton, beq_iff_eq, or_comm, eq_comm]
    · rw [Array.toList_push]
      exact List.nodup_append.mpr ⟨h.nodup, List.nodup_singleton a, fun b hb c hc =>
        fun he => hnot (List.mem_singleton.mp hc ▸ he ▸ hb)⟩
    · rw [Array.toList_push]
      exact List.prefix_append _ _
    · rw [Array.toList_push, List.mem_append, List.mem_singleton]

theorem isSet_foldl_push (found : List GroundAtom) (h : q.IsSet) :
    (found.foldl push q).IsSet ∧ q.atoms.toList <+: (found.foldl push q).atoms.toList ∧
    (∀ b, b ∈ (found.foldl push q).atoms.toList ↔ b ∈ q.atoms.toList ∨ b ∈ found) ∧
    (found.foldl push q).next = q.next := by
  induction found generalizing q with
  | nil => exact ⟨h, List.prefix_rfl, fun b => by simp, rfl⟩
  | cons a found ih =>
      obtain ⟨hset, hprefix, hmem, hnext⟩ := isSet_push (a := a) h
      obtain ⟨hset, hprefix', hmem', hnext'⟩ := ih hset
      refine ⟨hset, hprefix.trans hprefix', fun b => ?_, hnext'.trans hnext⟩
      rw [List.foldl_cons, hmem', hmem, List.mem_cons, or_assoc]

end Queue

/-- The queue in which only the facts were found. -/
def Program.firstQueue (p : Program) : Queue :=
  p.sortedFacts.foldl Queue.push {}

/-- A search with rules that look at all atoms again that matched their conditions. -/
structure ActiveSearch extends Queue where
  rules : Array ActiveRule

namespace ActiveSearch

variable {p : Program} {s : ActiveSearch} {a : GroundAtom}

/-- Processes one atom. -/
def process (table : Array (Selector ConditionRef)) (s : ActiveSearch) (a : GroundAtom) :
    ActiveSearch :=
  let entries := (table.getD a.relation.index (.leaf [])).select a.args
  let (found, rules) := entries.foldl (fun (found, rules) c =>
    let (more, rules) := fire rules a.args c
    (found ++ more, rules)) ([], s.rules)
  { toQueue := found.foldl Queue.push s.toQueue, rules }

/-- The atoms that were processed matched all conditions that they are instances of. -/
structure Invariant (p : Program) (s : ActiveSearch) : Prop extends s.IsSet where
  tracks : Tracks p s.rules {a | a ∈ s.atoms.toList} {a | a ∈ s.atoms.toList}
  seen : ∀ (i : Nat) a, i < s.next → s.atoms.toList[i]? = some a → ∀ e q, p.HasCondition e q →
    q.relation = a.relation → q.Matches a.args → HasSeen s.rules e a.args
  sound : ∀ a ∈ s.atoms.toList, a ∈ p.meaning
  facts : ∀ a ∈ p.facts, a ∈ s.atoms.toList
  next_le : s.next ≤ s.atoms.toList.length

/-- The search in which only the facts were found. -/
def start (p : Program) : ActiveSearch where
  toQueue := p.firstQueue
  rules := (p.rules.map ActiveRule.start).toArray

theorem invariant_start (hsafe : ∀ r ∈ p.rules, r.IsSafe) : (start p).Invariant p := by
  obtain ⟨hset, -, hmem, hnext⟩ := Queue.isSet_foldl_push p.sortedFacts Queue.isSet_empty
  have hmem : ∀ a, a ∈ p.firstQueue.atoms.toList ↔ a ∈ p.facts := fun a => by
    rw [Program.firstQueue, hmem]
    simp [Program.sortedFacts, List.mem_mergeSort]
  have hnext : (start p).next = 0 := hnext
  exact {
    hset with
    tracks := tracks_start hsafe
    seen := fun i a hi => absurd (hnext ▸ hi) (Nat.not_lt_zero i)
    sound := fun a ha => subset_leastModel ((hmem a).mp ha)
    facts := fun a ha => (hmem a).mpr ha
    next_le := hnext ▸ Nat.zero_le _ }

variable {arity : RelationId → Nat}

/-- An atom of the model is matched with the conditions that it is an instance of. -/
theorem mem_select_iff (hp : p.IsWellFormed arity) (ha : a ∈ p.meaning) {e : ConditionRef} :
    e ∈ ((selectors p).getD a.relation.index (.leaf [])).select a.args ↔
      ∃ q, p.HasCondition e q ∧ q.relation = a.relation ∧ q.Matches a.args := by
  rw [mem_select_selectors (hp.relation_lt ha)]
  refine exists_congr fun q => and_congr_right fun he => and_congr_right fun hq => ?_
  refine ⟨fun h => ?_, fun h => Pattern.constants_of_matches h⟩
  obtain ⟨r, hr, hqr⟩ := he
  have hr := List.mem_of_getElem? hr
  have hqr := List.mem_of_getElem? hqr
  refine Pattern.matches_of_constants ((hp.safe r hr).nodup q hqr) ?_ h
  rw [hp.args_length ha, hp.rule_arity r hr q (List.mem_cons_of_mem _ hqr), hq]

theorem invariant_process (hp : p.IsWellFormed arity) (h : s.Invariant p)
    (ha : s.atoms.toList[s.next]? = some a) :
    (process (selectors p) { s with next := s.next + 1 } a).Invariant p ∧
      (process (selectors p) { s with next := s.next + 1 } a).next = s.next + 1 := by
  have hmem := List.mem_of_getElem? ha
  have hmeaning := h.sound a hmem
  have hsound : {a | a ∈ s.atoms.toList} ⊆ p.meaning := h.sound
  rw [process]
  generalize hentries : ((selectors p).getD a.relation.index (.leaf [])).select a.args = entries
  have hiff : ∀ e, e ∈ entries ↔
      ∃ q, p.HasCondition e q ∧ q.relation = a.relation ∧ q.Matches a.args := fun e => by
    rw [← hentries]
    exact mem_select_iff hp hmeaning
  obtain ⟨htracks, hfound, hold, hnew⟩ := fold_fire (fun _ _ => rfl) hp.safe hmem hsound entries
    (fun e he => (hiff e).mp he) ([], s.rules) (h.tracks.mono subset_rfl Set.subset_union_left)
  revert htracks hfound hold hnew
  generalize entries.foldl _ ([], s.rules) = result
  intro htracks hfound hold hnew
  obtain ⟨hset, hprefix, hmem', hnext⟩ := Queue.isSet_foldl_push result.1
    (q := { s.toQueue with next := s.next + 1 }) ⟨h.known, h.nodup⟩
  refine ⟨{
    hset with
    tracks := by
      refine htracks.mono (fun b hb => (hmem' b).mpr (.inl hb)) fun b hb => (hmem' b).mpr hb
    seen := by
      intro i b hi hb e q he hq hargs
      rw [hnext] at hi
      have hlt : i < s.atoms.toList.length :=
        Nat.lt_of_lt_of_le hi (List.getElem?_eq_some_iff.mp ha).1
      have hb : s.atoms.toList[i]? = some b := by
        obtain ⟨rest, hrest⟩ := hprefix
        rw [← hb, ← hrest, List.getElem?_append_left hlt]
      rcases Nat.lt_succ_iff_lt_or_eq.mp hi with hi | rfl
      · exact hold e b.args (h.seen i b hi hb e q he hq hargs)
      · obtain rfl := Option.some.inj (ha.symm.trans hb)
        exact hnew e ((hiff e).mpr ⟨q, he, hq, hargs⟩)
    sound := fun b hb => ((hmem' b).mp hb).elim (h.sound b)
      (hfound (fun c hc => absurd hc List.not_mem_nil) b)
    facts := fun b hb => (hmem' b).mpr (.inl (h.facts b hb))
    next_le := by
      rw [hnext]
      exact Nat.lt_of_lt_of_le (List.getElem?_eq_some_iff.mp ha).1 hprefix.length_le }, hnext⟩

/-- When all atoms are processed every rule holds among them. -/
theorem Invariant.meaning_subset (h : s.Invariant p) (hdone : s.next = s.atoms.toList.length) :
    p.meaning ⊆ {a | a ∈ s.atoms.toList} := by
  refine leastModel_subset h.facts ?_
  rintro _ ⟨r, hr, rfl⟩ σ hbody
  obtain ⟨i, hi⟩ := List.mem_iff_getElem?.mp hr
  obtain ⟨active, hactive, rfl⟩ := Option.map_eq_some_iff.mp ((h.tracks.rule i).trans hi)
  refine (h.tracks.keeps i active hactive).closed σ fun q hq => ?_
  obtain ⟨j, hj⟩ := List.mem_iff_getElem?.mp hq
  obtain ⟨hcondition, hrecorded⟩ := List.getElem?_zip_eq_some.mp hj
  obtain ⟨k, hk⟩ := List.mem_iff_getElem?.mp (hbody q.1 (List.mem_of_getElem? hcondition))
  have hlt : k < s.next := hdone ▸ (List.getElem?_eq_some_iff.mp hk).1
  obtain ⟨active', hactive', seen, hseen, hargs⟩ := h.seen k _ hlt hk ⟨i, j⟩ q.1
    ⟨active.rule, hi, hcondition⟩ rfl ⟨σ, rfl⟩
  obtain rfl := Option.some.inj (hactive.symm.trans hactive')
  obtain rfl := Option.some.inj (hrecorded.symm.trans hseen)
  exact hargs

/-- Processes atoms until none is left, at most `fuel` of them. -/
def exhaust (table : Array (Selector ConditionRef)) : Nat → ActiveSearch → ActiveSearch
  | 0, s => s
  | fuel + 1, s =>
    match s.atoms[s.next]? with
    | none => s
    | some a => exhaust table fuel (process table { s with next := s.next + 1 } a)

/-- All atoms are processed if there are as many steps as the model may have atoms. -/
theorem invariant_exhaust (hp : p.IsWellFormed arity) (fuel : Nat) (h : s.Invariant p)
    (hfuel : p.atomBound < fuel + s.next) :
    (exhaust (selectors p) fuel s).Invariant p ∧
      (exhaust (selectors p) fuel s).next = (exhaust (selectors p) fuel s).atoms.toList.length := by
  induction fuel generalizing s with
  | zero =>
      have hle := hp.length_le h.nodup h.sound
      have hnext := h.next_le
      omega
  | succ fuel ih =>
      rw [exhaust]
      cases ha : s.atoms[s.next]? with
      | none =>
          rw [Array.getElem?_eq_none_iff] at ha
          exact ⟨h, Nat.le_antisymm h.next_le (by simpa using ha)⟩
      | some a =>
          rw [← Array.getElem?_toList] at ha
          obtain ⟨hinvariant, hnext⟩ := invariant_process hp h ha
          exact ih hinvariant (by omega)

/-- More steps than the model may have atoms change nothing. -/
theorem exhaust_eq (hp : p.IsWellFormed arity) {fuel fuel' : Nat} (h : s.Invariant p)
    (hfuel : p.atomBound < fuel + s.next) (hfuel' : p.atomBound < fuel' + s.next) :
    exhaust (selectors p) fuel s = exhaust (selectors p) fuel' s := by
  induction fuel generalizing s fuel' with
  | zero =>
      have hle := hp.length_le h.nodup h.sound
      have hnext := h.next_le
      omega
  | succ fuel ih =>
      cases fuel' with
      | zero =>
          have hle := hp.length_le h.nodup h.sound
          have hnext := h.next_le
          omega
      | succ fuel' =>
          rw [exhaust, exhaust]
          cases ha : s.atoms[s.next]? with
          | none => rfl
          | some a =>
              rw [← Array.getElem?_toList] at ha
              obtain ⟨hinvariant, hnext⟩ := invariant_process hp h ha
              exact ih hinvariant (by omega) (by omega)

end ActiveSearch

end Datalog
end FinitePlanning
