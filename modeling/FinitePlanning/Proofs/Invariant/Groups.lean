import Mathlib.Data.List.Nodup
import FinitePlanning.FactGroup
import FinitePlanning.Proofs.Invariant.Matching
import FinitePlanning.Proofs.Invariant.Occurrences

/-!
Groups of mutually exclusive atoms. An instance of an invariant that describes one
initial atom makes a group of the atoms that it describes, and the groups that are
chosen are made of atoms of one of these, or of a single atom.
-/

namespace FinitePlanning

namespace InvariantPart

variable {p : InvariantPart} {n : Nat}

/-- What stands at other positions is kept. -/
theorem getElem?_writes_of_not_mem {β : Type} {writes : List (Nat × β)} {i : Nat}
    (table : List (Option β)) (hne : ∀ q ∈ writes, q.1 ≠ i) :
    (writes.foldl (fun l (q : Nat × β) => l.set q.1 (some q.2)) table)[i]? = table[i]? := by
  induction writes generalizing table with
  | nil => rfl
  | cons q writes ih =>
      rw [List.forall_mem_cons] at hne
      rw [List.foldl_cons, ih _ hne.2, List.getElem?_set_ne hne.1]

/-- Values that are written to different positions are the ones that stand there. -/
theorem getElem?_writes {β : Type} (table : List (Option β)) {positions : List Nat}
    {values : List β} (hnodup : positions.Nodup)
    (hbound : ∀ i ∈ positions, i < table.length) (hlen : positions.length = values.length) :
    positions.map (fun i =>
      ((positions.zip values).foldl (fun l (q : Nat × β) => l.set q.1 (some q.2)) table)[i]?) =
      values.map fun b => some (some b) := by
  induction positions generalizing values table with
  | nil =>
      rw [List.length_eq_zero_iff.mp hlen.symm]
      rfl
  | cons i positions ih =>
      cases values with
      | nil => cases hlen
      | cons b values =>
          rw [List.nodup_cons] at hnodup
          rw [List.forall_mem_cons] at hbound
          rw [List.zip_cons_cons, List.map_cons, List.map_cons, List.foldl_cons]
          refine congrArg₂ _ ?_ ?_
          · rw [getElem?_writes_of_not_mem, List.getElem?_set_self hbound.1]
            rintro q hq rfl
            exact hnodup.1 (List.of_mem_zip hq).1
          · exact ih _ hnodup.2 (by simpa using hbound.2) (by simpa using hlen)

/-- The atoms that a part describes for some parameters have these parameters. -/
theorem parameters_of_mem_expandPattern (h : p.UsesPositions n) {objects params : List String}
    (hlen : p.order.length = params.length) {b : Atom}
    (hb : b ∈ FactGroups.expandPattern objects (p.instantiate params)) :
    b.predicate = p.predicate ∧ p.parameters b.args = params := by
  obtain ⟨counted, rfl⟩ : ∃ counted, b =
      ⟨p.predicate, (p.instantiate params).args.map (·.getD counted)⟩ := by
    rw [FactGroups.expandPattern] at hb
    split at hb
    next =>
      obtain ⟨o, -, rfl⟩ := List.mem_map.mp hb
      exact ⟨o, rfl⟩
    next => exact ⟨_, List.mem_singleton.mp hb⟩
  refine ⟨rfl, ?_⟩
  have hget := getElem?_writes (List.replicate
      (p.order.length + if p.omitted.isSome then 1 else 0) (none : Option String))
    h.nodup_order (fun i hi => by simpa [h.length_eq] using h.lt hi) hlen
  have hvalues := congrArg (List.map fun x : Option (Option String) =>
    (x.map (·.getD counted)).getD default) hget
  rw [List.map_map, List.map_map] at hvalues
  refine Eq.trans ?_ (hvalues.trans (List.map_id params))
  refine List.map_congr_left fun i _ => ?_
  simp [instantiate, List.getD_eq_getElem?_getD]

end InvariantPart

namespace Invariant

variable {v : Invariant}

theorem part?_of_mem (hv : v.IsCandidate) {p : InvariantPart} (hp : p ∈ v.parts) :
    v.part? p.predicate = some p := by
  obtain ⟨q, hq⟩ : ∃ q, v.parts.find? (·.predicate == p.predicate) = some q :=
    Option.isSome_iff_exists.mp (List.find?_isSome.mpr ⟨p, hp, by simp⟩)
  have hpred : q.predicate = p.predicate := by simpa using List.find?_some hq
  rw [part?, hq, List.inj_on_of_nodup_map hv.predicates (List.mem_of_find?_eq_some hq) hp hpred]

/-- The atoms of the group of an instance are those that it describes. -/
theorem covers_of_mem_expand (hv : v.IsCandidate) {objects params : List String}
    (hlen : params.length = v.arity) {reachable : List Atom} {b : Atom}
    (hb : b ∈ FactGroups.expand objects reachable (v.instantiate params)) :
    v.Covers params b := by
  have hb := (List.mem_filter.mp hb).1
  obtain ⟨pattern, hpattern, hb⟩ := List.mem_flatMap.mp hb
  obtain ⟨p, hp, rfl⟩ := List.mem_map.mp hpattern
  obtain ⟨n, hpositions⟩ := hv.positions p hp
  obtain ⟨hpred, hparams⟩ := p.parameters_of_mem_expandPattern hpositions
    ((hv.arity p hp).trans hlen.symm) hb
  exact covers_iff.mpr ⟨p, hpred ▸ part?_of_mem hv hp, hparams⟩

/-- A useful group is made of the atoms of an instance that describes exactly one
initial atom. -/
theorem of_mem_usefulGroups {invariants : List Invariant} {init : List Atom}
    {group : List AtomPattern} (h : group ∈ usefulGroups invariants init) :
    ∃ v ∈ invariants, ∃ params, group = v.instantiate params ∧
      ∃! b, b ∈ init ∧ v.Covers params b := by
  rw [usefulGroups_eq] at h
  obtain ⟨⟨⟨i, params⟩, position⟩, hmem, rfl⟩ := List.mem_map.mp h
  obtain ⟨v, a, hv, ha, hcovers, hone⟩ := describesOnly_of_mem hmem
  refine ⟨v, List.mem_of_getElem? hv, params, ?_, a, ⟨List.mem_of_getElem? ha, hcovers⟩,
    fun b hb => hone b hb.1 hb.2⟩
  have hget : invariants.getD i default = v := by rw [List.getD_eq_getElem?_getD, hv, Option.getD_some]
  exact congrArg (·.instantiate params) hget

end Invariant

namespace FactGroups

theorem nodup_expandPattern {objects : List String} (h : objects.Nodup) (p : AtomPattern) :
    (expandPattern objects p).Nodup := by
  rw [expandPattern]
  split
  next hnone =>
    -- the counted argument is among the arguments of the atom
    obtain ⟨i, hi⟩ := List.mem_iff_getElem?.mp hnone
    refine h.map_on fun o _ o' _ heq => ?_
    have hargs := congrArg (·[i]?) (congrArg Atom.args heq)
    simpa [hi] using hargs
  next => exact List.nodup_singleton _

/-- The patterns of an instance are about different predicates. -/
theorem nodup_expand {v : Invariant} (hv : v.IsCandidate) {objects : List String}
    (h : objects.Nodup) (reachable : List Atom) (params : List String) :
    (expand objects reachable (v.instantiate params)).Nodup := by
  refine List.Nodup.filter _ (List.nodup_flatMap.mpr ⟨fun p _ => nodup_expandPattern h p, ?_⟩)
  have hpredicate : ∀ {p : AtomPattern} {a : Atom}, a ∈ expandPattern objects p →
      a.predicate = p.predicate := by
    intro p a ha
    rw [expandPattern] at ha
    split at ha
    · obtain ⟨o, -, rfl⟩ := List.mem_map.mp ha
      rfl
    · rw [List.mem_singleton.mp ha]
  rw [Invariant.instantiate, List.pairwise_map]
  refine (List.pairwise_map.mp hv.predicates).imp fun hne a ha hb => hne ?_
  exact (hpredicate ha).symm.trans (hpredicate hb)

theorem mem_sortGroups {groups : List (List Atom)} {g : List Atom} :
    g ∈ sortGroups groups ↔
      ∃ g' ∈ groups, g'.mergeSort (fun a b => (compare a b).isLE) = g := by
  rw [sortGroups, List.mem_mergeSort, List.mem_map]

namespace Choosing

/-- What holds of the groups throughout the choice: they are parts of the groups at
the start. -/
structure IsPart (start : List (List Atom)) (s : Choosing) : Prop where
  groups : ∀ g ∈ s.groups, g.Nodup ∧ ∃ g' ∈ start, g ⊆ g'
  chosen : ∀ g ∈ s.chosen, g.Nodup ∧ g ≠ [] ∧ ∃ g' ∈ start, g ⊆ g'

variable {start : List (List Atom)} {s : Choosing}

theorem IsPart.choose (hs : s.IsPart start) {isPartial : Bool} {i : Nat}
    (hne : s.groups.getD i [] ≠ []) :
    (s.choose isPartial (s.groups.getD i [])).IsPart start := by
  have hmem : s.groups.getD i [] ∈ s.groups := by
    rw [Array.getD_eq_getD_getElem?] at hne ⊢
    cases hi : s.groups[i]? with
    | none => simp [hi] at hne
    | some g =>
        rw [Option.getD_some]
        exact Array.mem_of_getElem? hi
  constructor
  · intro g hg
    rw [Choosing.choose] at hg
    split at hg
    next =>
      obtain ⟨g', hg', rfl⟩ := Array.mem_map.mp hg
      obtain ⟨hnodup, g'', hg'', hsub⟩ := hs.groups g' hg'
      exact ⟨hnodup.filter _, g'', hg'', List.Subset.trans List.filter_sublist.subset hsub⟩
    next => exact hs.groups g hg
  · intro g hg
    rcases List.mem_cons.mp hg with rfl | hg
    · exact ⟨(hs.groups _ hmem).1, hne, (hs.groups _ hmem).2⟩
    · exact hs.chosen g hg

/-- What depends on the groups only and is kept when a group is chosen is kept
throughout the choice. -/
theorem run_induction {P : Choosing → Prop} {isPartial : Bool}
    (hcongr : ∀ s s', s'.groups = s.groups → s'.chosen = s.chosen → P s → P s')
    (hchoose : ∀ s i, P s → s.groups.getD i [] ≠ [] →
      P (s.choose isPartial (s.groups.getD i [])))
    (hs : P s) (fuel : Nat) : P (run isPartial fuel s) := by
  induction fuel generalizing s with
  | zero => exact hs
  | succ fuel ih =>
      rw [Choosing.run]
      split
      next => exact hs
      next hsize =>
        split
        next => exact ih (hcongr s _ rfl rfl hs)
        next i rest hbucket =>
          have hs' : P { s with buckets := s.buckets.set! s.size rest } := hcongr s _ rfl rfl hs
          refine ih ?_
          dsimp only
          split
          next hlength =>
            refine hchoose _ i hs' fun hnil => hsize ?_
            rw [← hlength, hnil]
            exact Nat.zero_le 1
          next => exact hcongr s _ rfl rfl hs

theorem IsPart.run (hs : s.IsPart start) (isPartial : Bool) (fuel : Nat) :
    (run isPartial fuel s).IsPart start :=
  run_induction (fun _ _ hgroups hchosen h => ⟨hgroups ▸ h.groups, hchosen ▸ h.chosen⟩)
    (fun _ _ h hne => h.choose hne) hs fuel

end Choosing

/-- At the start the groups are without repetitions and none is chosen. -/
theorem Choosing.start_spec (groups : List (List Atom)) :
    (Choosing.start groups).groups = (groups.map (·.eraseDups)).toArray ∧
      (Choosing.start groups).chosen = [] := by
  have hfile : ∀ (positions : List Nat) (s : Choosing),
      (positions.foldl Choosing.file s).groups = s.groups ∧
        (positions.foldl Choosing.file s).chosen = s.chosen := by
    intro positions
    induction positions with
    | nil => exact fun _ => ⟨rfl, rfl⟩
    | cons i positions ih => exact fun s => ih _
  exact hfile _ _

theorem Choosing.isPart_start (groups : List (List Atom)) :
    (Choosing.start groups).IsPart groups := by
  obtain ⟨hgroups, hchosen⟩ := start_spec groups
  constructor
  · intro g hg
    rw [hgroups, List.mem_toArray] at hg
    obtain ⟨g', hg', rfl⟩ := List.mem_map.mp hg
    exact ⟨nodup_eraseDups g', g', hg', fun a ha => List.mem_eraseDups.mp ha⟩
  · rw [hchosen]
    nofun

/-- The large groups are parts of the given ones. -/
theorem of_mem_chooseLarge {groups : List (List Atom)} {isPartial : Bool} {g : List Atom}
    (h : g ∈ chooseLarge groups isPartial) :
    g.Nodup ∧ g ≠ [] ∧ ∃ g' ∈ groups, g ⊆ g' :=
  ((Choosing.isPart_start groups).run isPartial _).chosen g (List.mem_reverse.mp h)

/-- Groups of atoms of which at most one is true in each reachable state. -/
def AreExclusive (t : Task) (groups : List (List Atom)) : Prop :=
  ∀ s, t.Reachable s → ∀ g ∈ groups, ∀ a ∈ g, ∀ b ∈ g, a ∈ s → b ∈ s → a = b

variable {t : Task} {groups groups' : List (List Atom)}

/-- Parts of exclusive groups are exclusive. -/
theorem AreExclusive.of_subset (h : AreExclusive t groups)
    (hsub : ∀ g ∈ groups', ∃ g' ∈ groups, g ⊆ g') : AreExclusive t groups' := by
  intro s hs g hg a ha b hb has hbs
  obtain ⟨g', hg', hsub⟩ := hsub g hg
  exact h s hs g' hg' a (hsub ha) b (hsub hb) has hbs

theorem AreExclusive.append (h : AreExclusive t groups) (h' : AreExclusive t groups') :
    AreExclusive t (groups ++ groups') := fun s hs g hg =>
  (List.mem_append.mp hg).elim (h s hs g) (h' s hs g)

theorem AreExclusive.sortGroups (h : AreExclusive t groups) :
    AreExclusive t (sortGroups groups) := by
  refine h.of_subset fun g hg => ?_
  obtain ⟨g', hg', rfl⟩ := mem_sortGroups.mp hg
  exact ⟨g', hg', (List.mergeSort_perm g' _).subset⟩

theorem areExclusive_singletons (atoms : List Atom) : AreExclusive t (singletons atoms) := by
  intro s _ g hg a ha b hb _ _
  obtain ⟨c, -, rfl⟩ := List.mem_map.mp hg
  rw [List.mem_singleton.mp ha, List.mem_singleton.mp hb]

variable {argumentsOf : Nat → List (List String)}

theorem areExclusive_expand (ht : t.IsNormal) (hlists : t.Lists argumentsOf)
    {invariants : List Invariant} (hfound : ∀ v ∈ invariants, v.IsWellFormed t ∧
      v.violation? (BalancedAction.ofTask t argumentsOf) = none)
    (hreliable : ∀ v ∈ invariants, v.IsReliable t argumentsOf) (objects : List String)
    (atoms : List Atom) :
    AreExclusive t ((Invariant.usefulGroups invariants t.init).map (expand objects atoms)) := by
  intro s hs g hg a ha b hb has hbs
  obtain ⟨patterns, hpatterns, rfl⟩ := List.mem_map.mp hg
  obtain ⟨v, hv, params, rfl, hone⟩ := Invariant.of_mem_usefulGroups hpatterns
  obtain ⟨hwell, hpass⟩ := hfound v hv
  have hlen : params.length = v.arity := by
    obtain ⟨c, hc, -⟩ := hone
    exact Invariant.Covers.length_eq hwell.arity hc.2
  exact Invariant.atMostOne_of_reachable ht hwell hpass (hreliable v hv) hlists hone hs a has b hbs
    (Invariant.covers_of_mem_expand hwell.toIsCandidate hlen ha)
    (Invariant.covers_of_mem_expand hwell.toIsCandidate hlen hb)

/-- The groups of reachable atoms that instances of invariants describe. -/
def found (t : Task) (atoms : List Atom) (invariants : List Invariant) : List (List Atom) :=
  sortGroups ((Invariant.usefulGroups invariants t.init).map
    (expand (t.objects.map (·.name)) atoms))

/-- The fact groups for given groups of exclusive atoms. -/
def ofFound (atoms : List Atom) (found : List (List Atom)) (isPartial : Bool) : FactGroups :=
  let large := chooseLarge found isPartial
  let chosen := sortGroups (large ++ singletons (uncovered large atoms))
  { groups := chosen
    mutexGroups := found ++ singletons (uncovered found atoms)
    valueNames := chosen.map valueNamesOf }

theorem exists_invariants_of_compute {atoms : List Atom} {o : Options} {budget : Budget}
    {g : FactGroups} (h : (compute t atoms argumentsOf o budget).Yields g) :
    ∃ invariants, (Invariant.find t argumentsOf o.invariantMaxCandidates o.invariantMaxTime
        budget).Yields invariants ∧
      g = ofFound atoms (found t atoms invariants) o.usePartialEncoding := by
  obtain ⟨invariants, hinvariants, h⟩ := Compilation.yields_bind h
  obtain ⟨-, -, h⟩ := Compilation.yields_bind h
  exact ⟨invariants, hinvariants, (Compilation.yields_pure h).symm⟩

theorem gives_compute {atoms : List Atom} {o : Options} {budget : Budget}
    {invariants : List Invariant}
    (h : (Invariant.find t argumentsOf o.invariantMaxCandidates o.invariantMaxTime budget).Gives
      invariants) :
    (compute t atoms argumentsOf o budget).Gives
      (ofFound atoms (found t atoms invariants) o.usePartialEncoding) :=
  h.bind ((Compilation.gives_log _ _).bind (Compilation.gives_pure _))

/-- The groups that are computed from reliable invariants are exclusive. -/
theorem areExclusive_of_yields (ht : t.IsNormal) (hlists : t.Lists argumentsOf) {o : Options}
    {budget : Budget}
    (hreliable : ∀ invariants, (Invariant.find t argumentsOf o.invariantMaxCandidates
      o.invariantMaxTime budget).Yields invariants → ∀ v ∈ invariants, v.IsReliable t argumentsOf)
    {atoms : List Atom} {g : FactGroups} (h : (compute t atoms argumentsOf o budget).Yields g) :
    AreExclusive t g.groups ∧ AreExclusive t g.mutexGroups := by
  obtain ⟨invariants, hfind, rfl⟩ := exists_invariants_of_compute h
  have hexclusive : AreExclusive t (found t atoms invariants) :=
    (areExclusive_expand ht hlists (Invariant.of_find ht hfind) (hreliable invariants hfind)
      _ atoms).sortGroups
  constructor
  · exact ((hexclusive.of_subset fun g hg => (of_mem_chooseLarge hg).2.2).append
      (areExclusive_singletons _)).sortGroups
  · exact hexclusive.append (areExclusive_singletons _)

/-- The test is right about all candidates if it relies on plain actions only. -/
theorem isReliable_of_find (ht : t.IsNormal) (hplain : ∀ a ∈ t.actions, a.IsPlain t) {most : Nat}
    {maxTime : Duration} {budget : Budget} {invariants : List Invariant}
    (h : (Invariant.find t argumentsOf most maxTime budget).Yields invariants) :
    ∀ v ∈ invariants, v.IsReliable t argumentsOf := fun v hv =>
  Invariant.isReliable_of_plain ht (Invariant.of_find ht h v hv).1 hplain argumentsOf

/-- The invariants that are found for plain actions hold in all reachable states. -/
theorem atMostOne_of_plain (ht : t.IsNormal) (hlists : t.Lists argumentsOf)
    (hplain : ∀ a ∈ t.actions, a.IsPlain t) {most : Nat} {maxTime : Duration} {budget : Budget}
    {invariants : List Invariant}
    (h : (Invariant.find t argumentsOf most maxTime budget).Yields invariants) {v : Invariant}
    (hv : v ∈ invariants) {params : List String} (hone : ∃! b, b ∈ t.init ∧ v.Covers params b)
    {s : Interpretation} (hs : t.Reachable s) : v.AtMostOne params s := by
  obtain ⟨hwell, hpass⟩ := Invariant.of_find ht h v hv
  exact Invariant.atMostOne_of_reachable ht hwell hpass (isReliable_of_find ht hplain h v hv)
    hlists hone hs

/-- The groups that are computed for plain actions are exclusive. -/
theorem areExclusive_of_plain (ht : t.IsNormal) (hlists : t.Lists argumentsOf)
    (hplain : ∀ a ∈ t.actions, a.IsPlain t) {o : Options} {budget : Budget} {atoms : List Atom}
    {g : FactGroups} (h : (compute t atoms argumentsOf o budget).Yields g) :
    AreExclusive t g.groups ∧ AreExclusive t g.mutexGroups :=
  areExclusive_of_yields ht hlists (fun _ => isReliable_of_find ht hplain) h

/-- The invariants that are found hold in all reachable states if the test is right about them, and
the groups that are computed from them are exclusive. -/
theorem found_hold_and_areExclusive (ht : t.IsNormal) (hlists : t.Lists argumentsOf)
    (o : Options) (budget : Budget)
    (hreliable : ∀ invariants, (Invariant.find t argumentsOf o.invariantMaxCandidates
      o.invariantMaxTime budget).Yields invariants → ∀ v ∈ invariants, v.IsReliable t argumentsOf) :
    (∀ invariants, (Invariant.find t argumentsOf o.invariantMaxCandidates o.invariantMaxTime
      budget).Yields invariants → ∀ v ∈ invariants, ∀ params, (∃! b, b ∈ t.init ∧ v.Covers params b) →
        ∀ s, t.Reachable s → v.AtMostOne params s) ∧
    ∀ atoms g, (compute t atoms argumentsOf o budget).Yields g →
      AreExclusive t g.groups ∧ AreExclusive t g.mutexGroups := by
  refine ⟨fun invariants hfind v hv params hone s hs => ?_, fun atoms g hg =>
    areExclusive_of_yields ht hlists hreliable hg⟩
  obtain ⟨hwell, hpass⟩ := Invariant.of_find ht hfind v hv
  exact Invariant.atMostOne_of_reachable ht hwell hpass (hreliable invariants hfind v hv) hlists
    hone hs

section Travelling

private def isAt (x : String) : Literal := (Atom.named "at" [x]).positive

/-- A task in which one drives between two places. -/
def travelling : Task where
  domainName := "travel"
  problemName := "travel"
  requirements := []
  types := ⟨[objectType], []⟩
  objects := [⟨"home", objectType⟩, ⟨"work", objectType⟩]
  predicates := [⟨"at", [⟨"?x", objectType⟩], false⟩]
  functions := []
  init := [.named "at" ["home"], ⟨.equal, ["home", "home"]⟩, ⟨.equal, ["work", "work"]⟩]
  assignments := []
  goal := .literal (isAt "work")
  actions := [{
    name := { name := "drive" }
    parameters := [⟨"?x", objectType⟩, ⟨"?y", objectType⟩]
    external := 2
    precondition := .literal (isAt "?x")
    effects := [⟨[], .true, isAt "?y"⟩, ⟨[], .true, (isAt "?x").negate⟩]
    cost := none }]
  axioms := []
  minimizesCost := false

theorem travelling_isNormal : travelling.IsNormal where
  objects := by decide
  predicates := by decide
  init := by decide
  equal := by simp [travelling, Atom.named]
  goal := by decide
  actions := by decide
  axioms := nofun

theorem travelling_isPlain : ∀ a ∈ travelling.actions, a.IsPlain travelling := by
  intro a ha
  obtain rfl := List.mem_singleton.mp ha
  have hmentioned : Action.mentioned (travelling.actions.head (by decide)) =
      [isAt "?x", isAt "?y", (isAt "?x").negate] := by
    simp [Action.mentioned, travelling, Condition.literals, Condition.walk, Condition.walkAll,
      Condition.parts, Condition.literal?, List.filterMap_cons]
  have hquantified : ∀ d ∈ (travelling.actions.head (by decide)).effects, d.parameters = [] := by
    decide
  constructor
  case terms => exact hmentioned ▸ by decide
  case inequalities => exact hmentioned ▸ by decide
  case additions => exact fun e he _ => hquantified e he
  case deletions =>
    intro d hd p hp
    rw [hquantified d hd] at hp
    exact absurd hp List.not_mem_nil
  case single => decide

theorem travelling_hold_and_areExclusive :
    (∀ invariants, (Invariant.find travelling travelling.typedArguments
      ({} : Options).invariantMaxCandidates ({} : Options).invariantMaxTime .unlimited).Yields
      invariants → ∀ v ∈ invariants,
        ∀ params, (∃! b, b ∈ travelling.init ∧ v.Covers params b) →
          ∀ s, travelling.Reachable s → v.AtMostOne params s) ∧
    ∀ atoms g, (compute travelling atoms travelling.typedArguments {} .unlimited).Yields g →
      AreExclusive travelling g.groups ∧ AreExclusive travelling g.mutexGroups :=
  found_hold_and_areExclusive travelling_isNormal Task.lists_typedArguments {} .unlimited
    fun _ => isReliable_of_find travelling_isNormal travelling_isPlain

end Travelling

end FactGroups

/-!
### Groups of the useful instances

The groups of the useful instances. The pattern of a part for the parameters of an atom is the atom
with a gap in the place of the counted argument, and filling the gap in all ways yields the atoms
that the instance describes.
-/

namespace InvariantPart

variable {p : InvariantPart} {args objects : List String} {a : Atom}

theorem length_args_instantiate (p : InvariantPart) (params : List String) :
    (p.instantiate params).args.length = p.order.length + if p.omitted.isSome then 1 else 0 := by
  have hwrites : ∀ (writes : List (Nat × String)) (table : List (Option String)),
      (writes.foldl (fun l q => l.set q.1 (some q.2)) table).length = table.length := by
    intro writes
    induction writes with
    | nil => exact fun _ => rfl
    | cons q writes ih => exact fun table => (ih _).trans List.length_set
  exact (hwrites _ _).trans List.length_replicate

/-- The pattern for the parameters of an atom has the arguments of the atom and a gap. -/
theorem getElem?_instantiate_parameters (h : p.UsesPositions args.length) (j : Nat) :
    (p.instantiate (p.parameters args)).args[j]? =
      args[j]?.map fun x => if p.omitted = some j then none else some x := by
  have hlength := p.length_args_instantiate (p.parameters args)
  rw [h.length_eq] at hlength
  by_cases hj : j < args.length
  · cases hrole : p.role j with
    | none =>
        have hnot : j ∉ p.order := by simpa [role, List.idxOf?_eq_none_iff] using hrole
        have hother : ∀ q ∈ p.order.zip (p.parameters args), q.1 ≠ j := by
          rintro ⟨i, x⟩ hq rfl
          exact hnot (List.of_mem_zip hq).1
        refine (getElem?_writes_of_not_mem _ hother).trans ?_
        rw [List.getElem?_replicate_of_lt (h.length_eq.symm ▸ hj), List.getElem?_eq_getElem hj,
          Option.map_some, if_pos ((h.role_eq_none_iff hj).mp hrole)]
    | some k =>
        have hne : p.omitted ≠ some j := by
          rw [Ne, ← h.role_eq_none_iff hj, hrole]
          exact Option.some_ne_none k
        have horder : p.order[k]? = some j := h.role_eq_some_iff.mp hrole
        have hparameter : (p.parameters args)[k]? = some args[j] := by
          rw [h.getElem?_parameters, horder, Option.bind_some, List.getElem?_eq_getElem hj]
        have hwrites := congrArg (·[k]?) (getElem?_writes
          (List.replicate (p.order.length + if p.omitted.isSome then 1 else 0) (none : Option String))
          h.nodup_order (fun i hi => by rw [List.length_replicate, h.length_eq]; exact h.lt hi)
          (show p.order.length = (p.parameters args).length by rw [parameters, List.length_map]))
        rw [List.getElem?_map, List.getElem?_map, horder, hparameter] at hwrites
        rw [List.getElem?_eq_getElem hj, Option.map_some, if_neg hne]
        exact Option.some.inj hwrites
  · rw [List.getElem?_eq_none (hlength ▸ Nat.le_of_not_lt hj),
      List.getElem?_eq_none (Nat.le_of_not_lt hj), Option.map_none]

/-- Filling the gap with the argument that was left out gives back the arguments. -/
theorem fill_instantiate_parameters (h : p.UsesPositions args.length) {counted : String}
    (hcounted : ∀ j, p.omitted = some j → args[j]? = some counted) :
    (p.instantiate (p.parameters args)).args.map (·.getD counted) = args := by
  refine List.ext_getElem? fun j => ?_
  rw [List.getElem?_map, getElem?_instantiate_parameters h, Option.map_map]
  by_cases hj : p.omitted = some j
  · rw [hcounted j hj]
    simp [hj]
  · simp [hj, Function.comp_def]

/-- An atom is among those that a part describes for its parameters. -/
theorem mem_expandPattern (h : p.UsesPositions a.args.length) (hpredicate : a.predicate = p.predicate)
    (hobjects : ∀ x ∈ a.args, x ∈ objects) :
    a ∈ FactGroups.expandPattern objects (p.instantiate (p.parameters a.args)) := by
  have hfill : ∀ counted, (∀ j, p.omitted = some j → a.args[j]? = some counted) →
      a = ⟨p.predicate, (p.instantiate (p.parameters a.args)).args.map (·.getD counted)⟩ := by
    intro counted hcounted
    rw [fill_instantiate_parameters h hcounted, ← hpredicate]
  rw [FactGroups.expandPattern]
  cases homitted : p.omitted with
  | none =>
      have hnone : none ∉ (p.instantiate (p.parameters a.args)).args := by
        intro hmem
        obtain ⟨j, hj⟩ := List.mem_iff_getElem?.mp hmem
        rw [getElem?_instantiate_parameters h, homitted, Option.map_eq_some_iff] at hj
        obtain ⟨x, -, hx⟩ := hj
        rw [if_neg (by simp)] at hx
        cases hx
      rw [if_neg hnone, List.mem_singleton]
      exact hfill countedArgument (by simp [homitted])
  | some j =>
      have hj : j < a.args.length := List.mem_range.mp (h.mem_iff.mp (by simp [homitted]))
      have hget : a.args[j]? = some a.args[j] := List.getElem?_eq_getElem hj
      have hnone : none ∈ (p.instantiate (p.parameters a.args)).args := by
        refine List.mem_of_getElem? (i := j) ?_
        rw [getElem?_instantiate_parameters h, hget, Option.map_some, if_pos homitted]
      rw [if_pos hnone]
      refine List.mem_map.mpr ⟨a.args[j], hobjects _ (List.getElem_mem hj), (hfill _ ?_).symm⟩
      rintro i hi
      rw [homitted] at hi
      cases hi
      exact hget

end InvariantPart

namespace Invariant

variable {v : Invariant} {objects params : List String} {reachable : List Atom} {a : Atom}

/-- The group of an instance is made of the reachable atoms that it describes. -/
theorem mem_expand_iff (hv : v.IsCandidate) (hlen : params.length = v.arity)
    (hpositions : ∀ b ∈ reachable, ∀ p ∈ v.parts, p.predicate = b.predicate →
      p.UsesPositions b.args.length)
    (hobjects : ∀ b ∈ reachable, ∀ x ∈ b.args, x ∈ objects) :
    a ∈ FactGroups.expand objects reachable (v.instantiate params) ↔
      a ∈ reachable ∧ v.Covers params a := by
  constructor
  · intro ha
    exact ⟨by simpa using (List.mem_filter.mp ha).2, covers_of_mem_expand hv hlen ha⟩
  · rintro ⟨ha, hcovers⟩
    obtain ⟨p, hp, rfl⟩ := covers_iff.mp hcovers
    have hmem : p ∈ v.parts := List.mem_of_find?_eq_some hp
    have hpredicate : p.predicate = a.predicate := by simpa using List.find?_some hp
    refine List.mem_filter.mpr ⟨List.mem_flatMap.mpr ⟨_, List.mem_map_of_mem hmem, ?_⟩, ?_⟩
    · exact p.mem_expandPattern (hpositions a ha p hmem hpredicate) hpredicate.symm (hobjects a ha)
    · simpa using ha

/-- There is one useful group for each instance that describes exactly one initial atom, in the
order of the invariants and of these atoms. The group of an instance lists the reachable atoms that
the instance describes, each once. -/
theorem useful_groups_expand_to_instances {invariants : List Invariant} {init : List Atom}
    {arity : Predicate → Nat} (hcandidates : ∀ v ∈ invariants, v.IsCandidate)
    (hpositions : ∀ v ∈ invariants, ∀ p ∈ v.parts, p.UsesPositions (arity p.predicate))
    (hinit : init.Nodup) :
    ∃ instances : List Occurrence,
      usefulGroups invariants init = instances.map (fun (i, _) =>
        (invariants.getD i.1 default).instantiate i.2) ∧
      (instances.map (·.1)).Nodup ∧
      (instances.Pairwise fun e f => e.1.1 < f.1.1 ∨ e.1.1 = f.1.1 ∧ e.2 < f.2) ∧
      (∀ i position, (i, position) ∈ instances ↔ DescribesOnly invariants init i position) ∧
      ∀ objects reachable, objects.Nodup →
        (∀ a ∈ reachable, a.args.length = arity a.predicate ∧ ∀ x ∈ a.args, x ∈ objects) →
        ∀ i position, (i, position) ∈ instances → ∀ v, invariants[i.1]? = some v →
          (FactGroups.expand objects reachable (v.instantiate i.2)).Nodup ∧
          ∀ a, a ∈ FactGroups.expand objects reachable (v.instantiate i.2) ↔
            a ∈ reachable ∧ v.Covers i.2 a := by
  refine ⟨usefulInstances invariants init, usefulGroups_eq invariants init,
    nodup_keys_usefulInstances invariants init, pairwise_usefulInstances invariants init,
    fun i position => mem_usefulInstances hinit,
    fun objects reachable hobjects hreachable i position hmem v hv => ?_⟩
  have hvmem := List.mem_of_getElem? hv
  have hcandidate := hcandidates v hvmem
  obtain ⟨w, b, hw, -, hcovers, -⟩ := describesOnly_of_mem hmem
  obtain rfl := Option.some.inj (hv.symm.trans hw)
  refine ⟨FactGroups.nodup_expand hcandidate hobjects reachable i.2, fun a => ?_⟩
  refine mem_expand_iff hcandidate (hcovers.length_eq hcandidate.arity) (fun b hb p hp he => ?_)
    fun b hb => (hreachable b hb).2
  rw [(hreachable b hb).1, ← he]
  exact hpositions v hvmem p hp

section Crowded

private def atPlace : Invariant := ⟨[⟨.named "at", [0], some 1⟩]⟩

private def isAt (x y : String) : Atom := .named "at" [x, y]

private theorem atPlace_isCandidate : atPlace.IsCandidate where
  arity := by decide
  predicates := by decide
  positions := by
    intro p hp
    obtain rfl := List.mem_singleton.mp hp
    exact ⟨2, by decide⟩

/-- Of two things, one is at two places. Only the other one makes a useful group, which lists its
two reachable places. -/
theorem crowded_groups_expand :
    (∃ instances : List Occurrence,
      usefulGroups [atPlace] [isAt "a" "x", isAt "a" "y", isAt "b" "x"] =
        instances.map (fun (i, _) => ([atPlace].getD i.1 default).instantiate i.2) ∧
      ((0, ["b"]), 2) ∈ instances ∧ ((0, ["a"]), 0) ∉ instances) ∧
    isAt "b" "y" ∈ FactGroups.expand ["a", "b", "x", "y"] [isAt "b" "y", isAt "a" "y"]
      (atPlace.instantiate ["b"]) := by
  have hcandidates : ∀ v ∈ [atPlace], v.IsCandidate := fun v hv =>
    List.mem_singleton.mp hv ▸ atPlace_isCandidate
  have hpositions : ∀ v ∈ [atPlace], ∀ p ∈ v.parts, p.UsesPositions 2 := by decide
  have hinit : [isAt "a" "x", isAt "a" "y", isAt "b" "x"].Nodup := by decide
  obtain ⟨instances, hgroups, -, -, hmem, hexpand⟩ :=
    @useful_groups_expand_to_instances _ _ (fun _ => 2) hcandidates hpositions hinit
  have hb : ((0, ["b"]), 2) ∈ instances :=
    (hmem (0, ["b"]) 2).mpr ⟨atPlace, isAt "b" "x", rfl, rfl, by decide, by decide⟩
  refine ⟨⟨instances, hgroups, hb, fun ha => ?_⟩, ?_⟩
  · obtain ⟨v, a, hv, ha, -, hone⟩ := (hmem (0, ["a"]) 0).mp ha
    obtain rfl := Option.some.inj hv
    obtain rfl := Option.some.inj ha
    exact absurd (hone (isAt "a" "y") (by decide) (by decide)) (by decide)
  · exact ((hexpand ["a", "b", "x", "y"] [isAt "b" "y", isAt "a" "y"] (by decide) (by decide) _ _ hb
      atPlace rfl).2 _).mpr ⟨by decide, by decide⟩

end Crowded

end Invariant
end FinitePlanning
