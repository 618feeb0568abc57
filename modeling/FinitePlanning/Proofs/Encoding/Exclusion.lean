import FinitePlanning.Proofs.Encoding.Runs

/-!
Operators and groups of exclusive facts. A precondition that requires two exclusive atoms is
dropped, but a negated atom is replaced by the other values of one of its variables, which are not
compared with the groups again. So operators respect the groups where these alternatives are apart
from what else is required. If every atom has a single fact then all combinations are used, and
alternatives that are not apart lead to an assignment that violates a group.
-/

namespace FinitePlanning
namespace FiniteDomain

instance : Std.TransOrd Fact :=
  inferInstanceAs (Std.TransCmp (compareLex (compareOn Fact.var) (compareOn Fact.value)))

instance : Std.LawfulEqOrd Fact where
  eq_of_compare {f g} h := by
    obtain ⟨hvar, hvalue⟩ := compareLex_eq_eq.mp h
    cases f
    cases g
    simp only [Fact.mk.injEq]
    exact ⟨Std.LawfulEqCmp.eq_of_compare hvar, Std.LawfulEqCmp.eq_of_compare hvalue⟩

namespace Dictionary

variable {d : Dictionary} {sets sets' : ValueSets} {σ : Valuation} {literals : List Literal}

/-! ### What value sets leave -/

theorem admits_of_excludeAtom {a : Atom} (hp : sets.Proper)
    (h : d.excludeAtom sets a = some sets') (hσ : sets'.Admits σ) :
    sets.Admits σ ∧ ∀ f, d.facts a = [f] → ¬ f.Holds σ := by
  simp only [excludeAtom] at h
  split at h
  next =>
    split at h
    next hmin =>
      obtain rfl := Option.some.inj h
      refine ⟨hσ, fun f hf => ?_⟩
      rw [hf] at hmin
      cases hmin
    next f hmin =>
      obtain rfl := Option.some.inj h
      rw [ValueSets.admits_append] at hσ
      refine ⟨hσ.1, fun g hg hholds => ?_⟩
      obtain rfl : f = g := List.mem_singleton.mp (hg ▸ List.minOn?_mem hmin)
      have hvalue := (List.mem_filter.mp (hσ.2 _ (List.mem_singleton_self _))).2
      exact of_decide_eq_true hvalue hholds
  next hne =>
    obtain ⟨-, hiff⟩ := ValueSets.foldlM_exclude_spec hp mem_keys_of_mem_filter h
    obtain ⟨hadmits, hfalse⟩ := (hiff σ).mp hσ
    refine ⟨hadmits, fun f hf => ?_⟩
    obtain ⟨g, hg⟩ := List.exists_mem_of_ne_nil _ hne
    obtain rfl : g = f := List.mem_singleton.mp (hf ▸ (List.mem_filter.mp hg).1)
    exact hfalse g hg

theorem admits_of_foldlM_excludeAtom {atoms : List Atom} (hd : d.HasAlternatives)
    (hp : sets.Proper) (h : atoms.foldlM d.excludeAtom sets = some sets') (hσ : sets'.Admits σ) :
    sets.Admits σ ∧ ∀ a ∈ atoms, ∀ f, d.facts a = [f] → ¬ f.Holds σ := by
  induction atoms generalizing sets with
  | nil =>
      obtain rfl := Option.some.inj h
      exact ⟨hσ, nofun⟩
  | cons a atoms ih =>
      rw [List.foldlM_cons] at h
      obtain ⟨next, hnext, h⟩ := Option.bind_eq_some_iff.mp h
      obtain ⟨hadmits, htail⟩ := ih (excludeAtom_spec hd hp hnext).1 h
      obtain ⟨hadmits, hhead⟩ := admits_of_excludeAtom hp hnext hadmits
      exact ⟨hadmits, List.forall_mem_cons.mpr ⟨hhead, htail⟩⟩

/-- Value sets leave the facts of the atoms that are required, and not those of the excluded atoms
that have only one fact. -/
theorem admits_of_restrict (hd : d.HasAlternatives) (h : d.restrict literals = some sets)
    (hσ : sets.Admits σ) :
    (∀ l ∈ literals, l.negated = false → FactsHold σ (d.facts l.atom)) ∧
      ∀ l ∈ literals, l.negated = true → ∀ f, d.facts l.atom = [f] → ¬ f.Holds σ := by
  rw [restrict] at h
  obtain ⟨positive, hpositive, hnegative⟩ := Option.bind_eq_some_iff.mp h
  rw [foldlM_requireAtom] at hpositive
  obtain ⟨hp, -, hiff⟩ :=
    ValueSets.foldlM_require_spec ValueSets.proper_nil ValueSets.fixed_nil hpositive
  obtain ⟨hadmits, hfalse⟩ := admits_of_foldlM_excludeAtom hd hp hnegative hσ
  refine ⟨fun l hl hpos f hf => ((hiff σ).mp hadmits).2 f ?_, fun l hl hneg => hfalse l.atom ?_⟩
  · exact List.mem_flatMap.mpr ⟨l.atom, List.mem_map_of_mem
      (List.mem_filter.mpr ⟨hl, by simp [hpos]⟩), hf⟩
  · exact List.mem_map_of_mem (List.mem_filter.mpr ⟨hl, hneg⟩)

/-! ### Alternatives -/

/-- A fact that may be required in place of an atom that is excluded. It is another value of a
variable of this atom, no atom that is required has a fact on this variable, and the fact itself is
not excluded. -/
structure IsAlternative (d : Dictionary) (literals : List Literal) (f : Fact) : Prop where
  allowed : ∃ l ∈ literals, l.negated = true ∧ d.Allows l f
  unrestricted : ∀ l ∈ literals, l.negated = false → ∀ g ∈ d.facts l.atom, g.var ≠ f.var
  kept : ∀ l ∈ literals, l.negated = true → d.facts l.atom ≠ [f]

/-- A fact of an atom that is required. -/
def IsRequired (d : Dictionary) (literals : List Literal) (f : Fact) : Prop :=
  ∃ l ∈ literals, l.negated = false ∧ f ∈ d.facts l.atom

/-- A fact that may be required. -/
def MayRequire (d : Dictionary) (literals : List Literal) (f : Fact) : Prop :=
  d.IsRequired literals f ∨ d.IsAlternative literals f

/-- No alternative is exclusive with what may be required of other variables. -/
def AlternativesAreApart (d : Dictionary) (mutexes : List MutexGroup)
    (literals : List Literal) : Prop :=
  ∀ m ∈ mutexes, ∀ f ∈ m.facts, ∀ g ∈ m.facts, d.IsAlternative literals f →
    d.MayRequire literals g → f.var = g.var

theorem exists_factsHold {a : Assignment} (hn : (a.map (·.var)).Nodup) : ∃ σ, FactsHold σ a :=
  ⟨fun v => (a.value? v).getD 0, fun f hf => by
    rw [Fact.Holds, Assignment.eq_value?_of_mem hn hf, Option.getD_some]⟩

theorem mayRequire_of_mem_assignments (hd : d.HasAlternatives) (hv : d.HasValues)
    {as : List Assignment} (h : d.assignments? literals = some as) {a : Assignment} (ha : a ∈ as)
    {f : Fact} (hf : f ∈ a) : d.MayRequire literals f := by
  obtain ⟨σ, hσ⟩ := exists_factsHold (nodup_vars_of_mem_assignments? hd h ha)
  obtain ⟨l, hl, hallows⟩ := allows_of_mem_assignments hv h ha hf
  obtain ⟨sets, hsets, rfl⟩ := Option.map_eq_some_iff.mp h
  obtain ⟨hrequired, hexcluded⟩ :=
    admits_of_restrict hd hsets (ValueSets.admits_of_factsHold ha hσ)
  by_cases hvar : ∃ l ∈ literals, l.negated = false ∧ ∃ g ∈ d.facts l.atom, g.var = f.var
  · obtain ⟨l, hl, hpos, g, hg, hgf⟩ := hvar
    obtain rfl := (hrequired l hl hpos g hg).eq (hσ f hf) hgf
    exact .inl ⟨l, hl, hpos, hg⟩
  · refine .inr ⟨⟨l, hl, ?_, hallows⟩, fun l hl hpos g hg hgf => hvar ⟨l, hl, hpos, g, hg, hgf⟩,
      fun l hl hneg hfacts => hexcluded l hl hneg f hfacts (hσ f hf)⟩
    obtain ⟨-, g, hg, hgf, -⟩ := hallows
    exact Bool.eq_true_of_not_eq_false fun hpos => hvar ⟨l, hl, hpos, g, hg, hgf⟩

/-! ### All alternatives are used -/

theorem admits_excludeAtom {a : Atom} (hp : sets.Proper) (h : d.excludeAtom sets a = some sets')
    (hσ : sets.Admits σ) (ha : ∀ f ∈ d.facts a, σ f.var < d.range f.var ∧ ¬ f.Holds σ) :
    sets'.Admits σ := by
  simp only [excludeAtom] at h
  split at h
  next =>
    split at h
    next => exact Option.some.inj h ▸ hσ
    next f hmin =>
      obtain rfl := Option.some.inj h
      obtain ⟨hrange, hfalse⟩ := ha f (List.minOn?_mem hmin)
      rw [ValueSets.admits_append]
      exact ⟨hσ, List.forall_mem_singleton.mpr (List.mem_filter.mpr
        ⟨List.mem_range.mpr hrange, decide_eq_true hfalse⟩)⟩
  next =>
    exact ((ValueSets.foldlM_exclude_spec hp mem_keys_of_mem_filter h).2 σ).mpr
      ⟨hσ, fun f hf => (ha f (List.mem_of_mem_filter hf)).2⟩

theorem admits_foldlM_excludeAtom {atoms : List Atom} (hd : d.HasAlternatives) (hp : sets.Proper)
    (h : atoms.foldlM d.excludeAtom sets = some sets') (hσ : sets.Admits σ)
    (hatoms : ∀ a ∈ atoms, ∀ f ∈ d.facts a, σ f.var < d.range f.var ∧ ¬ f.Holds σ) :
    sets'.Admits σ := by
  induction atoms generalizing sets with
  | nil => exact Option.some.inj h ▸ hσ
  | cons a atoms ih =>
      rw [List.forall_mem_cons] at hatoms
      rw [List.foldlM_cons] at h
      obtain ⟨next, hnext, h⟩ := Option.bind_eq_some_iff.mp h
      exact ih (excludeAtom_spec hd hp hnext).1 h (admits_excludeAtom hp hnext hσ hatoms.1)
        hatoms.2

/-- A fact of an atom that is excluded. -/
def IsExcluded (d : Dictionary) (literals : List Literal) (f : Fact) : Prop :=
  ∃ l ∈ literals, l.negated = true ∧ f ∈ d.facts l.atom

/-- A valuation is admitted if it has the facts that are required, and other values of the variables
of excluded atoms. -/
theorem admits_restrict (hd : d.HasAlternatives) (h : d.restrict literals = some sets)
    (hrequired : ∀ f, d.IsRequired literals f → f.Holds σ)
    (hexcluded : ∀ f, d.IsExcluded literals f → σ f.var < d.range f.var ∧ ¬ f.Holds σ) :
    sets.Admits σ := by
  rw [restrict] at h
  obtain ⟨positive, hpositive, hnegative⟩ := Option.bind_eq_some_iff.mp h
  rw [foldlM_requireAtom] at hpositive
  obtain ⟨hp, -, hiff⟩ :=
    ValueSets.foldlM_require_spec ValueSets.proper_nil ValueSets.fixed_nil hpositive
  refine admits_foldlM_excludeAtom hd hp hnegative
    ((hiff σ).mpr ⟨ValueSets.admits_nil σ, fun f hf => ?_⟩) fun a ha f hf => ?_
  · obtain ⟨a, ha, hf⟩ := List.mem_flatMap.mp hf
    obtain ⟨l, hl, rfl⟩ := List.mem_map.mp ha
    obtain ⟨hl, hpos⟩ := List.mem_filter.mp hl
    exact hrequired f ⟨l, hl, by simpa using hpos, hf⟩
  · obtain ⟨l, hl, rfl⟩ := List.mem_map.mp ha
    obtain ⟨hl, hneg⟩ := List.mem_filter.mp hl
    exact hexcluded f ⟨l, hl, hneg, hf⟩

section Single

variable (hd : d.HasAlternatives) (hv : d.HasValues) (hsets : d.restrict literals = some sets)
  (hsingle : ∀ l ∈ literals, ∃ f, d.facts l.atom = [f])
include hd hsets

theorem holds_of_isRequired (hσ : sets.Admits σ) {f : Fact} (hf : d.IsRequired literals f) :
    f.Holds σ := by
  obtain ⟨l, hl, hpos, hf⟩ := hf
  exact (admits_of_restrict hd hsets hσ).1 l hl hpos f hf

include hsingle in
theorem not_holds_of_isExcluded (hσ : sets.Admits σ) {f : Fact} (hf : d.IsExcluded literals f) :
    ¬ f.Holds σ := by
  obtain ⟨l, hl, hneg, hf⟩ := hf
  obtain ⟨g, hg⟩ := hsingle l hl
  obtain rfl : f = g := List.mem_singleton.mp (hg ▸ hf)
  exact (admits_of_restrict hd hsets hσ).2 l hl hneg f hg

include hsingle in
/-- The variables of the literals are restricted, as their values would not matter otherwise. -/
theorem mem_keys_of_mem_literals {l : Literal} (hl : l ∈ literals) {f : Fact}
    (hf : f ∈ d.facts l.atom) : f.var ∈ sets.map (·.1) := by
  obtain ⟨σ, hσ⟩ := (restrict_spec hd hsets).1.exists_admits
  by_contra hkey
  cases hneg : l.negated with
  | false =>
      have hvalue := holds_of_isRequired hd hsets (hσ.set (f := ⟨f.var, f.value + 1⟩) hkey)
        ⟨l, hl, hneg, hf⟩
      rw [Fact.holds_set, if_pos rfl] at hvalue
      exact absurd hvalue.symm (Nat.succ_ne_self f.value)
  | true =>
      exact not_holds_of_isExcluded hd hsets hsingle (hσ.set hkey) ⟨l, hl, hneg, hf⟩
        Fact.holds_set_self

include hv hsingle

theorem lt_range_of_isExcluded (hσ : sets.Admits σ) {f : Fact} (hf : d.IsExcluded literals f) :
    σ f.var < d.range f.var := by
  obtain ⟨l, hl, -, hf⟩ := hf
  obtain ⟨p, hp, hkey⟩ := List.mem_map.mp (mem_keys_of_mem_literals hd hsets hsingle hl hf)
  obtain ⟨_, -, hrange, -⟩ := leaves_restrict hv hsets p hp _ (hσ p hp)
  rwa [← hkey]

/-- A variable may be given a value that is required or an alternative. -/
theorem admits_set (hσ : sets.Admits σ) {f : Fact} (hf : d.MayRequire literals f) :
    sets.Admits (f.set σ) := by
  rcases hf with hf | hf
  · rwa [Fact.set_of_holds (holds_of_isRequired hd hsets hσ hf)]
  · refine admits_restrict hd hsets (fun g hg => ?_) fun g hg => ?_
    · obtain ⟨l, hl, hpos, hgl⟩ := hg
      rw [Fact.holds_set, if_neg (hf.unrestricted l hl hpos g hgl)]
      exact holds_of_isRequired hd hsets hσ ⟨l, hl, hpos, hgl⟩
    · by_cases hvar : g.var = f.var
      · obtain ⟨l, hl, hneg, hgl⟩ := hg
        obtain ⟨_, -, -, hrange, -⟩ := hf.allowed
        refine ⟨?_, fun hholds => hf.kept l hl hneg ?_⟩
        · rwa [hvar, Fact.set, Function.update_self]
        · obtain rfl := hholds.eq Fact.holds_set_self hvar
          obtain ⟨g', hg'⟩ := hsingle l hl
          exact hg'.trans (congrArg (fun x => [x]) (List.mem_singleton.mp (hg' ▸ hgl)).symm)
      · rw [Fact.holds_set, if_neg hvar, Fact.set, Function.update_of_ne hvar]
        exact ⟨lt_range_of_isExcluded hd hv hsets hsingle hσ hg,
          not_holds_of_isExcluded hd hsets hsingle hσ hg⟩

omit hv in
theorem mem_keys_of_mayRequire {f : Fact} (hf : d.MayRequire literals f) :
    f.var ∈ sets.map (·.1) := by
  rcases hf with ⟨l, hl, -, hf⟩ | hf
  · exact mem_keys_of_mem_literals hd hsets hsingle hl hf
  · obtain ⟨l, hl, -, -, g, hg, hvar, -⟩ := hf.allowed
    exact hvar ▸ mem_keys_of_mem_literals hd hsets hsingle hl hg

end Single

/-- Facts of two variables that may be required are required together by one of the assignments. -/
theorem exists_assignment_of_mayRequire (hd : d.HasAlternatives) (hv : d.HasValues)
    (hsingle : ∀ l ∈ literals, ∃ f, d.facts l.atom = [f]) {as : List Assignment}
    (h : d.assignments? literals = some as) {f g : Fact} (hvar : f.var ≠ g.var)
    (hf : d.MayRequire literals f) (hg : d.MayRequire literals g) :
    ∃ a ∈ as, f ∈ a ∧ g ∈ a := by
  obtain ⟨sets, hsets, rfl⟩ := Option.map_eq_some_iff.mp h
  have hp := (restrict_spec hd hsets).1
  obtain ⟨σ, hσ⟩ := hp.exists_admits
  have hσ := admits_set hd hv hsets hsingle (admits_set hd hv hsets hsingle hσ hf) hg
  obtain ⟨a, ha⟩ := ValueSets.filter_assignments_of_admits hp hσ
  obtain ⟨ha, hholds⟩ := List.mem_filter.mp (ha ▸ List.mem_singleton_self a)
  have hmem : ∀ x : Fact, d.MayRequire literals x → x.Holds (g.set (f.set σ)) → x ∈ a := by
    intro x hx hvalue
    have hkey := mem_keys_of_mayRequire hd hsets hsingle hx
    rw [← (ValueSets.map_var_perm_of_mem_assignments ha).mem_iff] at hkey
    obtain ⟨y, hy, hxy⟩ := List.mem_map.mp hkey
    exact (of_decide_eq_true hholds y hy).eq hvalue hxy ▸ hy
  refine ⟨a, ha, hmem f hf ?_, hmem g hg Fact.holds_set_self⟩
  rw [Fact.holds_set, if_neg hvar]
  exact Fact.holds_set_self

/-- Alternatives that are not apart lead to an assignment that requires exclusive facts. -/
theorem exists_exclusive_of_not_alternativesAreApart (hd : d.HasAlternatives) (hv : d.HasValues)
    (hsingle : ∀ l ∈ literals, ∃ f, d.facts l.atom = [f]) {as : List Assignment}
    (h : d.assignments? literals = some as) {mutexes : List MutexGroup}
    (hapart : ¬ d.AlternativesAreApart mutexes literals) :
    ∃ a ∈ as, ∃ m ∈ mutexes, ∃ f ∈ a, ∃ g ∈ a, f ≠ g ∧ f ∈ m.facts ∧ g ∈ m.facts := by
  simp only [AlternativesAreApart, not_forall] at hapart
  obtain ⟨m, hm, f, hfm, g, hgm, hf, hg, hvar⟩ := hapart
  obtain ⟨a, ha, hfa, hga⟩ := exists_assignment_of_mayRequire hd hv hsingle h hvar (.inr hf) hg
  exact ⟨a, ha, m, hm, f, hfa, g, hga, fun heq => hvar (congrArg Fact.var heq), hfm, hgm⟩

/-! ### Groups of exclusive facts -/

theorem atom_eq_of_mem_facts {groups : List (List Atom)} {a b : Atom} {f : Fact}
    (ha : f ∈ (ofGroups groups).facts a) (hb : f ∈ (ofGroups groups).facts b) : a = b := by
  obtain ⟨g, hg, hga⟩ := mem_facts.mp ha
  obtain ⟨g', hg', hgb⟩ := mem_facts.mp hb
  obtain rfl := Option.some.inj (hg.symm.trans hg')
  exact Option.some.inj (hga.symm.trans hgb)

theorem mem_mutexGroup {atoms : List Atom} {f : Fact} :
    f ∈ (d.mutexGroup atoms).facts ↔ ∃ a ∈ atoms, (d.facts a).head? = some f := by
  rw [mutexGroup, MutexGroup.ofFacts, mem_orderedSet, List.mem_filterMap]

/-- Atoms of a group that are required together are the same. -/
theorem eq_of_restrict_ne_none {groups : List (List Atom)}
    (h : (ofGroups groups).restrict literals ≠ none) {g : List Atom} (hg : g ∈ groups)
    {l l' : Literal} (hl : l ∈ literals) (hpos : l.negated = false) (hlg : l.atom ∈ g)
    (hl' : l' ∈ literals) (hpos' : l'.negated = false) (hlg' : l'.atom ∈ g) : l.atom = l'.atom := by
  obtain ⟨sets, hsets⟩ := Option.ne_none_iff_exists'.mp h
  have hd := hasAlternatives_ofGroups groups
  obtain ⟨σ, hσ⟩ := (restrict_spec hd hsets).1.exists_admits
  obtain ⟨hrequired, -⟩ := admits_of_restrict hd hsets hσ
  obtain ⟨var, hvar⟩ := List.getElem?_of_mem hg
  have hvalue : ∀ l ∈ literals, l.negated = false → l.atom ∈ g → g[σ var]? = some l.atom := by
    intro l hl hpos hlg
    obtain ⟨value, hvalue⟩ := List.getElem?_of_mem hlg
    have hholds := hrequired l hl hpos ⟨var, value⟩ (mem_facts.mpr ⟨g, hvar, hvalue⟩)
    rwa [show σ var = value from hholds]
  exact Option.some.inj ((hvalue l hl hpos hlg).symm.trans (hvalue l' hl' hpos' hlg'))

end Dictionary

namespace Encoder

variable {groups : FactGroups} {literals : List Literal}

/-- An assignment of a condition whose alternatives are apart requires no exclusive facts. -/
theorem eq_of_mem_mutexGroup {as : List Assignment}
    (h : (encoderOf groups.groups groups.mutexGroups).assignments? literals = some as)
    (hapart : (Dictionary.ofGroups groups.groups).AlternativesAreApart
      (groups.mutexGroups.map (Dictionary.ofGroups groups.groups).mutexGroup) literals)
    {a : Assignment} (ha : a ∈ as) {m : MutexGroup}
    (hm : m ∈ groups.mutexGroups.map (Dictionary.ofGroups groups.groups).mutexGroup)
    {f g : Fact} (hf : f ∈ a) (hg : g ∈ a) (hfm : f ∈ m.facts) (hgm : g ∈ m.facts) : f = g := by
  have hd := Dictionary.hasAlternatives_ofGroups groups.groups
  have hv := Dictionary.hasValues_ofGroups groups.groups
  have has := dictionary_of_assignments h
  have hsame : f.var = g.var → f = g := fun hvar => List.inj_on_of_nodup_map
    (Dictionary.nodup_vars_of_mem_assignments? hd has ha) hf hg hvar
  rcases Dictionary.mayRequire_of_mem_assignments hd hv has ha hf with hrequired | halternative
  · rcases Dictionary.mayRequire_of_mem_assignments hd hv has ha hg with hrequired' | halternative
    · -- exclusive atoms that are required contradict each other
      obtain ⟨l, hl, hpos, hfl⟩ := hrequired
      obtain ⟨l', hl', hpos', hgl⟩ := hrequired'
      obtain ⟨atoms, hatoms, rfl⟩ := List.mem_map.mp hm
      obtain ⟨b, hb, hfb⟩ := Dictionary.mem_mutexGroup.mp hfm
      obtain ⟨c, hc, hgc⟩ := Dictionary.mem_mutexGroup.mp hgm
      obtain rfl := Dictionary.atom_eq_of_mem_facts hfl (List.mem_of_head? hfb)
      obtain rfl := Dictionary.atom_eq_of_mem_facts hgl (List.mem_of_head? hgc)
      have hrestrict : (Dictionary.ofGroups groups.mutexGroups).restrict literals ≠ none := by
        obtain ⟨sets, hsets, -⟩ := Option.bind_eq_some_iff.mp h
        exact Option.ne_none_iff_exists'.mpr ⟨sets, hsets⟩
      have heq := Dictionary.eq_of_restrict_ne_none hrestrict hatoms hl hpos hb hl' hpos' hc
      rw [heq] at hfb
      exact Option.some.inj (hfb.symm.trans hgc)
    · exact hsame (hapart m hm g hgm f hfm halternative (.inl hrequired)).symm
  · exact hsame (hapart m hm f hfm g hgm halternative
      (Dictionary.mayRequire_of_mem_assignments hd hv has ha hg))

end Encoder

/-! ### Operators -/

theorem ActionEncoding.mem_of_mem_preconditions {x : ActionEncoding} {p : Assignment} {o : Operator}
    (h : x.operator? p = some o) {f : Fact} (hf : f ∈ o.preconditions) : f ∈ p := by
  rcases List.mem_append.mp (mem_orderedSet.mp hf) with hf | hf
  · obtain ⟨-, rfl⟩ := operator_eq_some h
    exact List.mem_of_mem_filter (mem_orderedSet.mp hf)
  · obtain ⟨e, he, hbefore⟩ := List.mem_filterMap.mp hf
    rw [Effect.beforeFact?, before_eq_of_operator? h he] at hbefore
    obtain ⟨value, hvalue, rfl⟩ := Option.map_eq_some_iff.mp hbefore
    exact Assignment.value?_eq_some hvalue

end FiniteDomain

namespace PropositionalTask

open FiniteDomain

/-- The operators of a partial encoding require one value of a variable, and no exclusive facts if
the alternatives of the preconditions are apart from what else these require. -/
theorem encode_respects_mutexes {t : PropositionalTask} {groups : FactGroups}
    {task : FiniteDomain.Task}
    (h : (FiniteDomain.Task.encode t groups true).Yields (.ok task)) :
    (∀ o ∈ task.operators, (o.preconditions.map (·.var)).Nodup) ∧
    ((∀ a ∈ t.actions,
        (encoderOf groups.groups groups.mutexGroups).assignments? a.precondition ≠ none →
        (Dictionary.ofGroups groups.groups).AlternativesAreApart task.mutexes a.precondition) →
      ∀ o ∈ task.operators, ∀ m ∈ task.mutexes, ∀ f ∈ o.preconditions, ∀ g ∈ o.preconditions,
        f ∈ m.facts → g ∈ m.facts → f = g) := by
  have he := encodedFrom_of_yields h
  refine ⟨fun o ho => ?_, fun hapart o ho => ?_⟩
  all_goals
    obtain ⟨a, ha, x, hx, p, hp, hoperator⟩ := exists_operator?_of_mem_operators he ho
    obtain ⟨ps, hps, rfl⟩ := Option.map_eq_some_iff.mp hx
    have hmem := fun f => ActionEncoding.mem_of_mem_preconditions (f := f) hoperator
  · have hn := Dictionary.nodup_vars_of_mem_assignments?
      (Dictionary.hasAlternatives_ofGroups groups.groups) (Encoder.dictionary_of_assignments hps) hp
    refine List.Nodup.map_on (fun f hf g hg hvar => ?_) (nodup_orderedSet _)
    exact List.inj_on_of_nodup_map hn (hmem f hf) (hmem g hg) hvar
  · have hapart := hapart a ha (Option.ne_none_iff_exists'.mpr ⟨ps, hps⟩)
    rw [he.mutexes, if_pos rfl] at hapart ⊢
    exact fun m hm f hf g hg =>
      Encoder.eq_of_mem_mutexGroup hps hapart hp hm (hmem f hf) (hmem g hg)

/-- A truck that is loaded through its open door before it arrives. -/
def loading : PropositionalTask :=
  { driving with
    atoms := driving.atoms ++ [.named "open" [], .named "loaded" []]
    init := driving.init ++ [.named "open" []]
    goal := [(Atom.named "loaded" []).positive]
    actions := [{
      name := "(load)"
      precondition := [(Atom.named "at" ["b"]).negative, (Atom.named "open" []).positive]
      adds := [⟨[], .named "loaded" []⟩]
      deletes := []
      cost := 1 }] }

/-- The places of the truck, its door and its load. The door is not open at the second place. -/
def loadingGroups : FactGroups where
  groups := [driving.atoms, [.named "open" []], [.named "loaded" []]]
  mutexGroups := [driving.atoms, [.named "at" ["b"], .named "open" []], [.named "loaded" []]]
  valueNames := [["at a", "at b", "none"], ["open", "none"], ["loaded", "none"]]

def loadingTask : FiniteDomain.Task :=
  assemble loading loadingGroups true #[0, 0, 1] [⟨2, 0⟩] [] #[none, none, none]

theorem dictionary_loading :
    (∀ var, (Dictionary.ofGroups loadingGroups.groups).range var = [3, 2, 2].getD var 0) ∧
    (Dictionary.ofGroups loadingGroups.groups).facts (.named "at" ["a"]) = [⟨0, 0⟩] ∧
    (Dictionary.ofGroups loadingGroups.groups).facts (.named "at" ["b"]) = [⟨0, 1⟩] ∧
    (Dictionary.ofGroups loadingGroups.groups).facts (.named "open" []) = [⟨1, 0⟩] ∧
    (Dictionary.ofGroups loadingGroups.groups).facts (.named "loaded" []) = [⟨2, 0⟩] := by
  refine ⟨fun var => by simp [Dictionary.range, Dictionary.ofGroups, loadingGroups, driving],
    ?_, ?_, ?_, ?_⟩
  all_goals
    rw [Dictionary.facts_ofGroups]
    decide

theorem mutexes_loading :
    (Dictionary.ofGroups loadingGroups.mutexGroups).facts (.named "at" ["b"]) =
      [⟨0, 1⟩, ⟨1, 0⟩] ∧
    (Dictionary.ofGroups loadingGroups.mutexGroups).facts (.named "open" []) = [⟨1, 1⟩] ∧
    (Dictionary.ofGroups loadingGroups.mutexGroups).facts (.named "loaded" []) = [⟨2, 0⟩] := by
  refine ⟨?_, ?_, ?_⟩
  all_goals
    rw [Dictionary.facts_ofGroups]
    decide

theorem assignments?_loading :
    (encoderOf loadingGroups.groups loadingGroups.mutexGroups).assignments? loading.goal =
      some [[⟨2, 0⟩]] ∧
    (encoderOf loadingGroups.groups loadingGroups.mutexGroups).assignments?
      [(Atom.named "at" ["b"]).negative, (Atom.named "open" []).positive] =
      some [[⟨0, 0⟩, ⟨1, 0⟩], [⟨0, 2⟩, ⟨1, 0⟩]] := by
  obtain ⟨hrange, -, hb, hopen, hloaded⟩ := dictionary_loading
  obtain ⟨hb', hopen', hloaded'⟩ := mutexes_loading
  have hrange' : ∀ var, (Dictionary.ofGroups loadingGroups.mutexGroups).range var =
      [3, 3, 2].getD var 0 := fun var => by
    simp [Dictionary.range, Dictionary.ofGroups, loadingGroups, driving]
  simp only [Encoder.assignments?, Dictionary.assignments?, Dictionary.restrict, loading,
    Dictionary.requireAtom, Dictionary.excludeAtom, Atom.positive, Atom.negative, List.filter,
    Bool.not_false, Bool.not_true, List.map_cons, List.map_nil, List.foldlM_cons, List.foldlM_nil,
    hb, hb', hopen, hopen', hloaded, hloaded', hrange, hrange']
  constructor
  · simp [ValueSets.require, ValueSets.assignments, choices]
  · simp only [ValueSets.require, List.lookup_nil, List.lookup_cons, List.nil_append,
      List.foldlM_cons, List.foldlM_nil, Option.pure_def, Option.bind_eq_bind, Option.bind_some,
      Option.isSome_none, Option.isSome_some, Nat.reduceBEq, ValueSets.exclude]
    cbv

/-- The operators require a value of the first variable and the open door. -/
theorem preconditions_loadingTask : loadingTask.operators.map (·.preconditions) =
    [[⟨0, 0⟩, ⟨1, 0⟩], [⟨0, 2⟩, ⟨1, 0⟩]] := by
  obtain ⟨hrange, -, -, -, hloaded⟩ := dictionary_loading
  have heffect : (encoderOf loadingGroups.groups loadingGroups.mutexGroups).effect?
      ⟨[], .named "loaded" []⟩ = some ⟨[], [[]], [⟨2, 0⟩]⟩ := by
    rw [Encoder.effect?, hloaded]
    simp [Encoder.assignments?, Dictionary.assignments?, Dictionary.restrict, ValueSets.assignments,
      choices]
  have hnone : EffectTable.ofEntries [] = [] := by simp [EffectTable.ofEntries]
  simp only [loadingTask, assemble, loading, ActionEncoding.ofAction, List.filterMap_cons,
    List.filterMap_nil, assignments?_loading.2, Option.map_some, Encoder.effectTable, heffect,
    Encoder.deletions, Encoder.entries, Encoder.simplifyBinary, hrange, hnone, List.flatMap_nil]
  cbv

theorem yields_loading :
    (FiniteDomain.Task.encode loading loadingGroups true).Yields (.ok loadingTask) := by
  obtain ⟨-, ha, hb, hopen, hloaded⟩ := dictionary_loading
  refine (gives_encode (List.cons_ne_nil _ _) ?_ ?_ assignments?_loading.1 rfl rfl).yields
  · rw [forM_eq_ok_iff]
    simp only [loading, driving, List.cons_append, List.nil_append, List.mem_cons,
      List.not_mem_nil, or_false, Dictionary.checkAtom]
    rintro a (rfl | rfl | rfl | rfl)
    · rw [ha]
      rfl
    · rw [hb]
      rfl
    · rw [hopen]
      rfl
    · rw [hloaded]
      rfl
  · have hstart : (Dictionary.ofGroups loadingGroups.groups).ranges.map (· - 1) = #[2, 1, 1] := by
      simp [Dictionary.ofGroups, loadingGroups, driving]
    simp only [Dictionary.initialState, hstart, loading, driving, List.cons_append, List.nil_append,
      List.foldlM_cons, List.foldlM_nil, Dictionary.setInitial, ha, hopen]
    rfl

/-- The second group has facts of two variables. -/
theorem mutexes_loadingTask :
    loadingTask.mutexes = [⟨[⟨0, 0⟩, ⟨0, 1⟩]⟩, ⟨[⟨0, 1⟩, ⟨1, 0⟩]⟩, ⟨[⟨2, 0⟩]⟩] := by
  obtain ⟨-, ha, hb, hopen, hloaded⟩ := dictionary_loading
  simp only [loadingTask, assemble, loadingGroups, driving, if_true, List.map_cons, List.map_nil,
    Dictionary.mutexGroup, List.filterMap_cons, List.filterMap_nil] at ha hb hopen hloaded ⊢
  simp only [ha, hb, hopen, hloaded]
  cbv

/-- The alternatives of the goal are not exclusive with the open door, although the goal is. -/
theorem loading_respects_mutexes :
    (FiniteDomain.Task.encode loading loadingGroups true).Yields (.ok loadingTask) ∧
    loadingTask.operators.map (·.preconditions) =
      [[⟨0, 0⟩, ⟨1, 0⟩], [⟨0, 2⟩, ⟨1, 0⟩]] ∧
    ∀ o ∈ loadingTask.operators, (o.preconditions.map (·.var)).Nodup ∧
      ∀ m ∈ loadingTask.mutexes, ∀ f ∈ o.preconditions, ∀ g ∈ o.preconditions,
        f ∈ m.facts → g ∈ m.facts → f = g := by
  obtain ⟨hvars, hmutexes⟩ := encode_respects_mutexes yields_loading
  refine ⟨yields_loading, preconditions_loadingTask, fun o ho => ⟨hvars o ho, hmutexes ?_ o ho⟩⟩
  rintro a haction - m hm f hf g hg ⟨⟨l, hl, hnegated, -, f', hf', hvar, hvalue⟩, -, -⟩ -
  obtain rfl := List.mem_singleton.mp haction
  -- an alternative is another value of the first variable
  obtain rfl | rfl :
      l = (Atom.named "at" ["b"]).negative ∨ l = (Atom.named "open" []).positive := by
    simpa using hl
  · obtain rfl := List.mem_singleton.mp (dictionary_loading.2.2.1 ▸ hf')
    have hvalue : f.value ≠ 1 := fun h => Bool.false_ne_true (hvalue.mp h).symm
    simp only [mutexes_loadingTask, List.mem_cons, List.not_mem_nil, or_false] at hm
    obtain rfl | rfl | rfl := hm
    · simp only [List.mem_cons, List.not_mem_nil, or_false] at hf hg
      obtain rfl | rfl := hf <;> obtain rfl | rfl := hg <;> rfl
    · simp only [List.mem_cons, List.not_mem_nil, or_false] at hf
      obtain rfl | rfl := hf
      · exact absurd rfl hvalue
      · cases hvar
    · rw [List.mem_singleton.mp hf, List.mem_singleton.mp hg]
  · cases hnegated
end PropositionalTask
end FinitePlanning
