import FinitePlanning.Proofs.Invariant.Groups

/-!
The chosen groups cover all atoms. In the partial encoding each atom is in one group, and a derived
atom always is in a group of its own. A group is a single atom or is made of atoms of one instance
of an invariant, so that it has at most one initial atom.
-/

namespace FinitePlanning
namespace FactGroups

theorem perm_flatten_sortGroups (groups : List (List Atom)) :
    (sortGroups groups).flatten.Perm groups.flatten := by
  refine (List.Perm.flatten (List.mergeSort_perm _ _)).trans ?_
  induction groups with
  | nil => exact .nil
  | cons g groups ih => exact (List.mergeSort_perm g _).append ih

theorem flatten_singletons (atoms : List Atom) : (singletons atoms).flatten = atoms := by
  induction atoms with
  | nil => rfl
  | cons a atoms ih => exact congrArg (a :: ·) ih

theorem mem_uncovered {groups : List (List Atom)} {atoms : List Atom} {a : Atom} :
    a ∈ uncovered groups atoms ↔ a ∈ atoms ∧ a ∉ groups.flatten := by
  simp [uncovered]

theorem count_uncovered {groups : List (List Atom)} {atoms : List Atom} {a : Atom}
    (hn : atoms.Nodup) (ha : a ∈ atoms) :
    (uncovered groups atoms).count a = if a ∈ groups.flatten then 0 else 1 := by
  split
  next h => exact List.count_eq_zero.mpr fun hmem => (mem_uncovered.mp hmem).2 h
  next h => exact List.count_eq_one_of_mem (hn.filter _) (mem_uncovered.mpr ⟨ha, h⟩)

namespace Choosing

variable {s : Choosing}

/-- In the partial encoding the groups that are left have no atom of a chosen one. -/
structure IsDisjoint (s : Choosing) : Prop where
  nodup : ∀ g ∈ s.groups, g.Nodup
  groups : ∀ g ∈ s.groups, ∀ a ∈ g, a ∉ s.chosen.flatten
  chosen : s.chosen.flatten.Nodup

theorem IsDisjoint.choose (h : s.IsDisjoint) (i : Nat) :
    (s.choose true (s.groups.getD i [])).IsDisjoint := by
  have hgroup : (s.groups.getD i []).Nodup ∧ ∀ a ∈ s.groups.getD i [], a ∉ s.chosen.flatten := by
    rw [Array.getD_eq_getD_getElem?]
    cases hi : s.groups[i]? with
    | none => exact ⟨List.nodup_nil, nofun⟩
    | some g => exact ⟨h.nodup g (Array.mem_of_getElem? hi), h.groups g (Array.mem_of_getElem? hi)⟩
  have hfilter : ∀ g ∈ (s.choose true (s.groups.getD i [])).groups,
      ∃ g' ∈ s.groups, g'.filter (· ∉ s.groups.getD i []) = g := fun g hg => Array.mem_map.mp hg
  refine ⟨fun g hg => ?_, fun g hg a ha => ?_, ?_⟩
  · obtain ⟨g', hg', rfl⟩ := hfilter g hg
    exact (h.nodup g' hg').filter _
  · obtain ⟨g', hg', rfl⟩ := hfilter g hg
    rw [List.mem_filter, decide_eq_true_eq] at ha
    change a ∉ s.groups.getD i [] ++ s.chosen.flatten
    rw [List.mem_append, not_or]
    exact ⟨ha.2, h.groups g' hg' a ha.1⟩
  · exact List.nodup_append.mpr ⟨hgroup.1, h.chosen, fun a ha b hb he =>
      hgroup.2 a ha (he ▸ hb)⟩

theorem IsDisjoint.run (h : s.IsDisjoint) (fuel : Nat) : (Choosing.run true fuel s).IsDisjoint :=
  run_induction (fun _ _ hgroups hchosen h =>
      ⟨hgroups ▸ h.nodup, hgroups ▸ hchosen ▸ h.groups, hchosen ▸ h.chosen⟩)
    (fun _ i h _ => h.choose i) h fuel

theorem isDisjoint_start (groups : List (List Atom)) : (Choosing.start groups).IsDisjoint := by
  have hchosen := (start_spec groups).2
  exact ⟨fun g hg => ((isPart_start groups).groups g hg).1, fun g _ a _ => by simp [hchosen],
    by simp [hchosen]⟩

end Choosing

/-- In the partial encoding no atom is in two large groups. -/
theorem nodup_flatten_chooseLarge (groups : List (List Atom)) :
    (chooseLarge groups true).flatten.Nodup := by
  have h := ((Choosing.isDisjoint_start groups).run (Choosing.stepBound groups)).chosen
  exact (List.Perm.nodup_iff (List.Perm.flatten (List.reverse_perm _))).mpr h

section Found

variable {t : Task} {atoms l : List Atom} {invariants : List Invariant}

/-- A group that is found is made of the reachable atoms of an instance of an invariant. -/
theorem exists_instance_of_mem_found (hl : l ∈ found t atoms invariants) :
    ∃ v ∈ invariants, ∃ params, v.instantiate params ∈ Invariant.usefulGroups invariants t.init ∧
      (∃! b, b ∈ t.init ∧ v.Covers params b) ∧
        l.Perm (expand (t.objects.map (·.name)) atoms (v.instantiate params)) := by
  obtain ⟨l', hl', rfl⟩ := mem_sortGroups.mp hl
  obtain ⟨patterns, hpatterns, rfl⟩ := List.mem_map.mp hl'
  obtain ⟨v, hv, params, rfl, hone⟩ := Invariant.of_mem_usefulGroups hpatterns
  exact ⟨v, hv, params, hpatterns, hone, List.mergeSort_perm _ _⟩

theorem exists_mem_found {patterns : List AtomPattern}
    (h : patterns ∈ Invariant.usefulGroups invariants t.init) :
    ∃ l ∈ found t atoms invariants, l.Perm (expand (t.objects.map (·.name)) atoms patterns) :=
  ⟨_, mem_sortGroups.mpr ⟨_, List.mem_map_of_mem h, rfl⟩, List.mergeSort_perm _ _⟩

theorem mem_atoms_of_mem_found (hl : l ∈ found t atoms invariants) {a : Atom} (ha : a ∈ l) :
    a ∈ atoms := by
  obtain ⟨v, -, params, -, -, hperm⟩ := exists_instance_of_mem_found hl
  simpa using (List.mem_filter.mp (hperm.mem_iff.mp ha)).2

variable (hcandidates : ∀ v ∈ invariants, v.IsCandidate)
include hcandidates

theorem exists_covers_of_mem_found (hl : l ∈ found t atoms invariants) :
    ∃ v ∈ invariants, ∃ params, (∃! b, b ∈ t.init ∧ v.Covers params b) ∧
      ∀ a ∈ l, v.Covers params a := by
  obtain ⟨v, hv, params, -, hone, hperm⟩ := exists_instance_of_mem_found hl
  have hlen : params.length = v.arity := by
    obtain ⟨c, hc, -⟩ := hone
    exact Invariant.Covers.length_eq (hcandidates v hv).arity hc.2
  exact ⟨v, hv, params, hone, fun a ha =>
    Invariant.covers_of_mem_expand (hcandidates v hv) hlen (hperm.mem_iff.mp ha)⟩

theorem nodup_of_mem_found (hobjects : (t.objects.map (·.name)).Nodup)
    (hl : l ∈ found t atoms invariants) : l.Nodup := by
  obtain ⟨v, hv, params, -, -, hperm⟩ := exists_instance_of_mem_found hl
  exact hperm.nodup_iff.mpr (nodup_expand (hcandidates v hv) hobjects _ _)

end Found

section Chosen

variable {atoms l : List Atom} {groups : List (List Atom)} {isPartial : Bool} {a : Atom}

theorem of_mem_groups_ofFound (hl : l ∈ (ofFound atoms groups isPartial).groups) :
    (∃ l' ∈ chooseLarge groups isPartial, l.Perm l') ∨ ∃ a ∈ atoms, l = [a] := by
  obtain ⟨l', hl', rfl⟩ := mem_sortGroups.mp hl
  rcases List.mem_append.mp hl' with hl' | hl'
  · exact .inl ⟨l', hl', List.mergeSort_perm _ _⟩
  · obtain ⟨a, ha, rfl⟩ := List.mem_map.mp hl'
    exact .inr ⟨a, (mem_uncovered.mp ha).1, List.mergeSort_singleton a⟩

theorem mem_groups_ofFound (ha : a ∈ atoms) :
    a ∈ (ofFound atoms groups isPartial).groups.flatten := by
  rw [ofFound, (perm_flatten_sortGroups _).mem_iff, List.flatten_append, flatten_singletons,
    List.mem_append, mem_uncovered]
  by_cases h : a ∈ (chooseLarge groups isPartial).flatten
  · exact .inl h
  · exact .inr ⟨ha, h⟩

theorem mem_mutexGroups_ofFound (ha : a ∈ atoms) :
    a ∈ (ofFound atoms groups isPartial).mutexGroups.flatten := by
  rw [ofFound, List.flatten_append, flatten_singletons, List.mem_append, mem_uncovered]
  by_cases h : a ∈ groups.flatten
  · exact .inl h
  · exact .inr ⟨ha, h⟩

/-- An atom is in one group only in the partial encoding, or if no large group has it. -/
theorem count_groups_ofFound (hn : atoms.Nodup) (ha : a ∈ atoms)
    (h : isPartial = true ∨ a ∉ (chooseLarge groups isPartial).flatten) :
    (ofFound atoms groups isPartial).groups.flatten.count a = 1 := by
  rw [ofFound, (perm_flatten_sortGroups _).count_eq, List.flatten_append, List.count_append,
    flatten_singletons, count_uncovered hn ha]
  split
  next hlarge =>
    obtain rfl : isPartial = true := h.resolve_right fun hnot => hnot hlarge
    exact List.count_eq_one_of_mem (nodup_flatten_chooseLarge groups) hlarge
  next hnot => rw [List.count_eq_zero.mpr hnot]

end Chosen

theorem exists_valueNamesOf_eq (l : List Atom) :
    ∃ last, valueNamesOf l = l.map (·.positive.text) ++ [last] := by
  match l with
  | [] | [_] | _ :: _ :: _ => exact ⟨_, rfl⟩

/-- Groups that are chosen for reachable atoms. -/
structure IsChoice (t : Task) (atoms : List Atom) (invariants : List Invariant)
    (isPartial : Bool) (g : FactGroups) : Prop where
  /-- In the partial encoding each atom is in one group, once. -/
  once : isPartial = true → ∀ a ∈ atoms, g.groups.flatten.count a = 1
  covered : ∀ a ∈ atoms, ∃ l ∈ g.groups, a ∈ l
  reachable : ∀ l ∈ g.groups, ∀ a ∈ l, a ∈ atoms
  nonempty : ∀ l ∈ g.groups, l ≠ []
  origin : ∀ l ∈ g.groups, (∃ a, l = [a]) ∨
    ∃ patterns ∈ Invariant.usefulGroups invariants t.init,
      l ⊆ expand (t.objects.map (·.name)) atoms patterns
  initial : ∀ l ∈ g.groups, ∀ a ∈ l, ∀ b ∈ l, a ∈ t.init → b ∈ t.init → a = b
  /-- There is a name for each atom of a group, and a last one. -/
  names : List.Forall₂ (fun l names => ∃ last, names = l.map (·.positive.text) ++ [last])
    g.groups g.valueNames
  exclusive : ∀ a ∈ atoms, ∃ l ∈ g.mutexGroups, a ∈ l
  /-- The atoms of each instance stay together as a group of exclusive atoms. -/
  instances : ∀ patterns ∈ Invariant.usefulGroups invariants t.init,
    ∃ l ∈ g.mutexGroups, l.Perm (expand (t.objects.map (·.name)) atoms patterns)

theorem isChoice_ofFound {t : Task} {atoms : List Atom} {invariants : List Invariant}
    (hn : atoms.Nodup) (hcandidates : ∀ v ∈ invariants, v.IsCandidate) (isPartial : Bool) :
    (ofFound atoms (found t atoms invariants) isPartial).IsChoice t atoms invariants isPartial where
  once hpartial a ha := count_groups_ofFound hn ha (.inl hpartial)
  covered a ha := List.mem_flatten.mp (mem_groups_ofFound ha)
  reachable l hl a ha := by
    rcases of_mem_groups_ofFound hl with ⟨l', hl', hperm⟩ | ⟨b, hb, rfl⟩
    · obtain ⟨-, -, group, hgroup, hsub⟩ := of_mem_chooseLarge hl'
      exact mem_atoms_of_mem_found hgroup (hsub (hperm.mem_iff.mp ha))
    · exact List.mem_singleton.mp ha ▸ hb
  nonempty l hl := by
    rcases of_mem_groups_ofFound hl with ⟨l', hl', hperm⟩ | ⟨b, -, rfl⟩
    · rintro rfl
      exact (of_mem_chooseLarge hl').2.1 hperm.nil_eq.symm
    · exact List.cons_ne_nil b []
  origin l hl := by
    rcases of_mem_groups_ofFound hl with ⟨l', hl', hperm⟩ | ⟨b, -, hb⟩
    · obtain ⟨-, -, group, hgroup, hsub⟩ := of_mem_chooseLarge hl'
      obtain ⟨v, -, params, huseful, -, hexpand⟩ := exists_instance_of_mem_found hgroup
      exact .inr ⟨_, huseful, fun a ha => hexpand.mem_iff.mp (hsub (hperm.mem_iff.mp ha))⟩
    · exact .inl ⟨b, hb⟩
  initial l hl a ha b hb hai hbi := by
    rcases of_mem_groups_ofFound hl with ⟨l', hl', hperm⟩ | ⟨c, -, rfl⟩
    · obtain ⟨-, -, group, hgroup, hsub⟩ := of_mem_chooseLarge hl'
      obtain ⟨v, -, params, hone, hcovers⟩ := exists_covers_of_mem_found hcandidates hgroup
      exact hone.unique ⟨hai, hcovers a (hsub (hperm.mem_iff.mp ha))⟩
        ⟨hbi, hcovers b (hsub (hperm.mem_iff.mp hb))⟩
    · rw [List.mem_singleton.mp ha, List.mem_singleton.mp hb]
  names := List.forall₂_map_right_iff.mpr
    (List.forall₂_same.mpr fun l _ => exists_valueNamesOf_eq l)
  exclusive a ha := List.mem_flatten.mp (mem_mutexGroups_ofFound ha)
  instances patterns hpatterns := by
    obtain ⟨l, hl, hperm⟩ := exists_mem_found hpatterns
    exact ⟨l, List.mem_append_left _ hl, hperm⟩

/-- The groups for any candidates that may be found are a choice, and so are the groups that are
computed, for the invariants that are found until the search ends or its time is up. Without other
limits groups are computed. -/
theorem computed_groups_are_chosen (t : Task) {atoms : List Atom} (hn : atoms.Nodup)
    (argumentsOf : Nat → List (List String)) (o : Options) :
    (∀ invariants : List Invariant, (∀ v ∈ invariants, v.IsCandidate) → ∀ isPartial,
      (ofFound atoms (found t atoms invariants) isPartial).IsChoice t atoms invariants isPartial) ∧
    (∀ searchTime, ∃ g, (compute t atoms argumentsOf o (.unlimited searchTime)).Gives g) ∧
    ∀ budget g, (compute t atoms argumentsOf o budget).Yields g →
      ∃ invariants, (Invariant.find t argumentsOf o.invariantMaxCandidates o.invariantMaxTime
          budget).Yields invariants ∧
        g = ofFound atoms (found t atoms invariants) o.usePartialEncoding ∧
        g.IsChoice t atoms invariants o.usePartialEncoding := by
  refine ⟨fun _ hcandidates => isChoice_ofFound hn hcandidates, fun searchTime => ?_,
    fun budget g hg => ?_⟩
  · obtain ⟨invariants, hfind⟩ := Invariant.exists_gives_find t argumentsOf
      o.invariantMaxCandidates o.invariantMaxTime searchTime
    exact ⟨_, gives_compute hfind⟩
  · obtain ⟨invariants, hfind, rfl⟩ := exists_invariants_of_compute hg
    exact ⟨invariants, hfind, rfl, isChoice_ofFound hn (Invariant.isCandidate_of_find hfind) _⟩

/-- In the partial encoding each of the two places is in one group. -/
theorem travelling_groups_are_chosen :
    ∃ g, (compute travelling [.named "at" ["home"], .named "at" ["work"]]
        travelling.typedArguments {} .unlimited).Yields g ∧
      (∃ invariants, g.IsChoice travelling [.named "at" ["home"], .named "at" ["work"]]
        invariants true) ∧
      g.groups.flatten.count (.named "at" ["work"]) = 1 := by
  have hchosen := computed_groups_are_chosen travelling
    (show [Atom.named "at" ["home"], .named "at" ["work"]].Nodup by decide)
    travelling.typedArguments {}
  obtain ⟨g, hg⟩ := hchosen.2.1 fun _ => 0
  obtain ⟨invariants, -, -, hchoice⟩ := hchosen.2.2 .unlimited g hg.yields
  exact ⟨g, hg.yields, ⟨invariants, hchoice⟩, hchoice.once rfl _ (by decide)⟩

/-- Groups that cover atoms of a task. -/
structure IsCover (t : Task) (atoms : List Atom) (isPartial : Bool) (g : FactGroups) : Prop where
  nodup : ∀ l ∈ g.groups, l.Nodup
  mem : ∀ a ∈ atoms, a ∈ g.groups.flatten
  /-- The atoms that are in one group only. -/
  count : ∀ a ∈ atoms, isPartial = true ∨ t.isDerived a = true → g.groups.flatten.count a = 1
  initial : ∀ l ∈ g.groups, ∀ a ∈ l, ∀ b ∈ l, a ∈ t.init → b ∈ t.init → a = b
  derived : ∀ l ∈ g.groups, ∀ a ∈ l, t.isDerived a = true → l = [a]
  names : g.valueNames = g.groups.map valueNamesOf

section Normal

variable {t : Task} {atoms : List Atom} {invariants : List Invariant} {a : Atom} (ht : t.IsNormal)
  (hwell : ∀ v ∈ invariants, v.IsWellFormed t)
include ht hwell

theorem basic_of_mem_found {l : List Atom} (hl : l ∈ found t atoms invariants) (ha : a ∈ l) :
    t.isDerived a = false := by
  obtain ⟨v, hv, params, -, hcovers⟩ :=
    exists_covers_of_mem_found (fun v hv => (hwell v hv).toIsCandidate) hl
  exact (Invariant.Covers.basic (hwell v hv) ht (hcovers a ha)).1

theorem basic_of_mem_chooseLarge {isPartial : Bool} {l : List Atom}
    (hl : l ∈ chooseLarge (found t atoms invariants) isPartial) (ha : a ∈ l) :
    t.isDerived a = false := by
  obtain ⟨-, -, group, hgroup, hsub⟩ := of_mem_chooseLarge hl
  exact basic_of_mem_found ht hwell hgroup (hsub ha)

end Normal

theorem isCover_of_yields {t : Task} {atoms : List Atom} {argumentsOf : Nat → List (List String)}
    {o : Options} {budget : Budget} {g : FactGroups} (ht : t.IsNormal) (hn : atoms.Nodup)
    (h : (compute t atoms argumentsOf o budget).Yields g) :
    g.IsCover t atoms o.usePartialEncoding := by
  obtain ⟨invariants, hfind, rfl⟩ := exists_invariants_of_compute h
  have hwell := fun v hv => (Invariant.of_find ht hfind v hv).1
  have hchoice := isChoice_ofFound (t := t) hn (Invariant.isCandidate_of_find hfind)
    o.usePartialEncoding
  refine ⟨fun l hl => ?_, fun a ha => mem_groups_ofFound ha, fun a ha hone => ?_,
    hchoice.initial, fun l hl a ha hderived => ?_, rfl⟩
  · rcases of_mem_groups_ofFound hl with ⟨l', hl', hperm⟩ | ⟨a, -, rfl⟩
    · exact hperm.nodup_iff.mpr (of_mem_chooseLarge hl').1
    · exact List.nodup_singleton a
  · refine count_groups_ofFound hn ha (hone.imp_right fun hderived hlarge => ?_)
    obtain ⟨l, hl, ha⟩ := List.mem_flatten.mp hlarge
    rw [basic_of_mem_chooseLarge ht hwell hl ha] at hderived
    cases hderived
  · rcases of_mem_groups_ofFound hl with ⟨l', hl', hperm⟩ | ⟨c, -, rfl⟩
    · rw [basic_of_mem_chooseLarge ht hwell hl' (hperm.mem_iff.mp ha)] at hderived
      cases hderived
    · rw [List.mem_singleton.mp ha]

/-- A group is a single atom, or it is made of different reachable atoms that are not derived. -/
theorem singleton_or_of_yields {t : Task} {atoms : List Atom}
    {argumentsOf : Nat → List (List String)} {o : Options} {budget : Budget} {g : FactGroups}
    (ht : t.IsNormal) (h : (compute t atoms argumentsOf o budget).Yields g) {l : List Atom}
    (hl : l ∈ g.groups ++ g.mutexGroups) :
    (∃ a, l = [a]) ∨ l.Nodup ∧ ∀ a ∈ l, a ∈ atoms ∧ t.isDerived a = false := by
  obtain ⟨invariants, hfind, rfl⟩ := exists_invariants_of_compute h
  have hwell := fun v hv => (Invariant.of_find ht hfind v hv).1
  have hfound : ∀ l ∈ found t atoms invariants, ∀ a ∈ l, a ∈ atoms ∧ t.isDerived a = false :=
    fun l hl a ha => ⟨mem_atoms_of_mem_found hl ha, basic_of_mem_found ht hwell hl ha⟩
  rcases List.mem_append.mp hl with hl | hl
  · rcases of_mem_groups_ofFound hl with ⟨l', hl', hperm⟩ | ⟨a, -, rfl⟩
    · obtain ⟨hnodup, -, group, hgroup, hsub⟩ := of_mem_chooseLarge hl'
      exact .inr ⟨hperm.nodup_iff.mpr hnodup, fun a ha =>
        hfound group hgroup a (hsub (hperm.mem_iff.mp ha))⟩
    · exact .inl ⟨a, rfl⟩
  · rcases List.mem_append.mp hl with hl | hl
    · exact .inr ⟨nodup_of_mem_found (fun v hv => (hwell v hv).toIsCandidate) ht.objects hl,
        hfound l hl⟩
    · obtain ⟨a, -, rfl⟩ := List.mem_map.mp hl
      exact .inl ⟨a, rfl⟩

end FactGroups
end FinitePlanning
