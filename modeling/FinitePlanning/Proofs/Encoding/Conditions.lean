import Mathlib.Data.List.Perm.Basic
import FinitePlanning.FiniteDomain.ActionEncoding
import FinitePlanning.Proofs.Encoding.Assignment

/-!
Conditions in finite-domain form. A conjunction of literals becomes a list of assignments over the
same variables. If the literals hold in a state, its valuation contains exactly one of them, and
none otherwise. The encoder also checks conditions against all groups of exclusive atoms, and drops
those that no state with exclusive groups satisfies.
-/

namespace FinitePlanning
namespace FiniteDomain

namespace ValueSets

variable {sets sets' : ValueSets} {fs : List Fact}

theorem not_admits_of_foldlM_require (hp : sets.Proper) (hfix : sets.Fixed)
    (h : fs.foldlM require sets = none) {σ : Valuation} (ha : sets.Admits σ) :
    ¬ FactsHold σ fs := by
  induction fs generalizing sets with
  | nil => cases h
  | cons f fs ih =>
      rw [List.foldlM_cons] at h
      rw [factsHold_cons]
      rintro ⟨hf, hfs⟩
      cases hr : sets.require f with
      | none => exact not_admits_of_require hfix hr ha hf
      | some next =>
          obtain ⟨hp', hfix', hiff⟩ := require_spec hp hfix hr
          rw [hr] at h
          exact ih hp' hfix' h ((hiff σ).mpr ⟨ha, hf⟩) hfs

theorem foldlM_require_spec (hp : sets.Proper) (hfix : sets.Fixed)
    (h : fs.foldlM require sets = some sets') :
    sets'.Proper ∧ sets'.Fixed ∧ ∀ σ, sets'.Admits σ ↔ sets.Admits σ ∧ FactsHold σ fs := by
  induction fs generalizing sets with
  | nil =>
      obtain rfl := Option.some.inj h
      exact ⟨hp, hfix, fun σ => by simp⟩
  | cons f fs ih =>
      rw [List.foldlM_cons] at h
      cases hr : sets.require f with
      | none => rw [hr] at h; cases h
      | some next =>
          obtain ⟨hp', hfix', hiff⟩ := require_spec hp hfix hr
          rw [hr] at h
          obtain ⟨hp'', hfix'', hiff'⟩ := ih hp' hfix' h
          refine ⟨hp'', hfix'', fun σ => ?_⟩
          rw [hiff', hiff, factsHold_cons, and_assoc]

theorem not_admits_of_foldlM_exclude (hp : sets.Proper)
    (hvars : ∀ f ∈ fs, f.var ∈ sets.map (·.1)) (h : fs.foldlM exclude sets = none)
    {σ : Valuation} (ha : sets.Admits σ) : ∃ f ∈ fs, f.Holds σ := by
  induction fs generalizing sets with
  | nil => cases h
  | cons f fs ih =>
      rw [List.foldlM_cons] at h
      cases hr : sets.exclude f with
      | none => exact ⟨f, List.mem_cons_self, not_admits_of_exclude hr ha⟩
      | some next =>
          obtain ⟨hp', hkeys, hiff⟩ := exclude_spec hp (hvars f List.mem_cons_self) hr
          rw [hr] at h
          by_cases hf : f.Holds σ
          · exact ⟨f, List.mem_cons_self, hf⟩
          · obtain ⟨g, hg, hgσ⟩ := ih hp' (fun g hg => by
              rw [hkeys]
              exact hvars g (List.mem_cons_of_mem f hg)) h ((hiff σ).mpr ⟨ha, hf⟩)
            exact ⟨g, List.mem_cons_of_mem f hg, hgσ⟩

theorem foldlM_exclude_spec (hp : sets.Proper)
    (hvars : ∀ f ∈ fs, f.var ∈ sets.map (·.1)) (h : fs.foldlM exclude sets = some sets') :
    sets'.Proper ∧ ∀ σ, sets'.Admits σ ↔ sets.Admits σ ∧ ∀ f ∈ fs, ¬ f.Holds σ := by
  induction fs generalizing sets with
  | nil =>
      obtain rfl := Option.some.inj h
      exact ⟨hp, fun σ => by simp⟩
  | cons f fs ih =>
      rw [List.foldlM_cons] at h
      cases hr : sets.exclude f with
      | none => rw [hr] at h; cases h
      | some next =>
          obtain ⟨hp', hkeys, hiff⟩ := exclude_spec hp (hvars f List.mem_cons_self) hr
          rw [hr] at h
          obtain ⟨hp'', hiff'⟩ := ih hp' (fun g hg => by
            rw [hkeys]
            exact hvars g (List.mem_cons_of_mem f hg)) h
          refine ⟨hp'', fun σ => ?_⟩
          rw [hiff', hiff, and_assoc, List.forall_mem_cons]

theorem filter_values {σ : Valuation} {var : Nat} {values : List Nat} (hn : values.Nodup)
    (h : σ var ∈ values) :
    (values.map (Fact.mk var)).filter (fun f => decide (f.Holds σ)) = [⟨var, σ var⟩] := by
  have hfilter : values.filter (fun x => decide (σ var = x)) = [σ var] := by
    induction values with
    | nil => cases h
    | cons x values ih =>
        rw [List.nodup_cons] at hn
        by_cases hx : σ var = x
        · subst hx
          have hrest : values.filter (fun y => decide (σ var = y)) = [] := by
            rw [List.filter_eq_nil_iff]
            intro y hy he
            exact hn.1 (of_decide_eq_true he ▸ hy)
          simp [hrest]
        · have hmem := (List.mem_cons.mp h).resolve_left hx
          rw [List.filter_cons_of_neg (by simpa using hx)]
          exact ih hn.2 hmem
  rw [List.filter_map]
  have hcomp : (fun f : Fact => decide (f.Holds σ)) ∘ Fact.mk var =
      fun x => decide (σ var = x) := rfl
  rw [hcomp, hfilter]
  rfl

/-- Exactly one of the assignments is contained in an admitted valuation. -/
theorem filter_assignments_of_admits (hp : sets.Proper) {σ : Valuation}
    (ha : sets.Admits σ) :
    ∃ a, sets.assignments.filter (fun a => decide (FactsHold σ a)) = [a] := by
  have hmem : ∀ p, p ∈ sets.mergeSort before ↔ p ∈ sets := fun p => List.mem_mergeSort
  have hsort : (fun a => decide (FactsHold σ a)) ∘
      (fun c : Assignment => c.mergeSort fun f g => f.var ≤ g.var) =
        fun c : Assignment => c.all fun f => decide (f.Holds σ) := by
    funext c
    rw [Function.comp_apply, Bool.eq_iff_iff, decide_eq_true_iff, List.all_eq_true]
    simp only [FactsHold, List.mem_mergeSort, decide_eq_true_eq]
  have hvalues : ((sets.mergeSort before).map fun p => p.2.map (Fact.mk p.1)).map
      (·.filter fun f => decide (f.Holds σ)) =
        (sets.mergeSort before).map fun p => [⟨p.1, σ p.1⟩] := by
    rw [List.map_map]
    refine List.map_congr_left fun p hpm => ?_
    have hpm := (hmem p).mp hpm
    exact filter_values (hp.values_nodup p hpm) (ha p hpm)
  refine ⟨((sets.mergeSort before).map fun p => (⟨p.1, σ p.1⟩ : Fact)).mergeSort
    fun f g => f.var ≤ g.var, ?_⟩
  have hchoices : sets.assignments = (choices ((sets.mergeSort before).map fun p =>
      p.2.map (Fact.mk p.1))).map (·.mergeSort fun f g => f.var ≤ g.var) := rfl
  rw [hchoices, List.filter_map, hsort, filter_choices, hvalues, choices_singletons]
  rfl

theorem admits_of_factsHold {σ : Valuation} {a : Assignment} (ha : a ∈ sets.assignments)
    (hσ : FactsHold σ a) : sets.Admits σ := by
  obtain ⟨c, hc, rfl⟩ := List.mem_map.mp ha
  intro p hp
  have hall : List.Forall₂ (· ∈ ·) c
      ((sets.mergeSort before).map fun p => p.2.map (Fact.mk p.1)) := mem_choices.mp hc
  have hmem : p.2.map (Fact.mk p.1) ∈ (sets.mergeSort before).map fun p => p.2.map (Fact.mk p.1) :=
    List.mem_map_of_mem (f := fun p : Nat × List Nat => p.2.map (Fact.mk p.1))
      (List.mem_mergeSort.mpr hp)
  obtain ⟨f, hfc, hf⟩ := exists_of_mem_forall₂_right hall hmem
  obtain ⟨x, hx, rfl⟩ := List.mem_map.mp hf
  have hholds : σ p.1 = x := hσ _ (List.mem_mergeSort.mpr hfc)
  exact hholds ▸ hx

/-- Sets that are left with one value each have one assignment. -/
theorem Fixed.length_assignments (h : sets.Fixed) : sets.assignments.length = 1 := by
  have hfacts : (sets.mergeSort before).map (fun p => p.2.map (Fact.mk p.1)) =
      (sets.mergeSort before).map fun p => [⟨p.1, p.2.headD 0⟩] := by
    refine List.map_congr_left fun p hp => ?_
    obtain ⟨value, hvalue⟩ := h p (List.mem_mergeSort.mp hp)
    rw [hvalue]
    rfl
  have hassignments : sets.assignments = (choices ((sets.mergeSort before).map fun p =>
      p.2.map (Fact.mk p.1))).map (·.mergeSort fun f g => f.var ≤ g.var) := rfl
  rw [hassignments, hfacts, choices_singletons]
  rfl

theorem length_assignments_single (var : Nat) (values : List Nat) :
    (assignments [(var, values)]).length = values.length := by
  simp [assignments, choices, Function.comp_def]

/-- All assignments are over the variables of the sets, each occurring once. -/
theorem map_var_perm_of_mem_assignments {a : Assignment} (ha : a ∈ sets.assignments) :
    (a.map (·.var)).Perm (sets.map (·.1)) := by
  obtain ⟨c, hc, rfl⟩ := List.mem_map.mp ha
  have hvars : ∀ (l : List (Nat × List Nat)) (c : List Fact),
      List.Forall₂ (· ∈ ·) c (l.map fun p => p.2.map (Fact.mk p.1)) →
        c.map (·.var) = l.map (·.1) := by
    intro l
    induction l with
    | nil =>
        rintro c hall
        cases hall
        rfl
    | cons p l ih =>
        rintro _ (_ | ⟨hf, hall⟩)
        obtain ⟨x, -, rfl⟩ := List.mem_map.mp hf
        rw [List.map_cons, List.map_cons, ih _ hall]
  have hc := hvars _ c (mem_choices.mp hc)
  refine ((List.mergeSort_perm c _).map _).trans ?_
  rw [hc]
  exact (List.mergeSort_perm sets _).map _

end ValueSets
namespace Dictionary

open ValueSets

variable {d : Dictionary} {sets sets' : ValueSets} {σ : Valuation} {s : Interpretation}

/-- Every variable of an atom has a value in which the atom is false. -/
def HasAlternatives (d : Dictionary) : Prop := ∀ a, ∀ f ∈ d.facts a, 2 ≤ d.range f.var

theorem hasAlternatives_ofGroups (groups : List (List Atom)) :
    (ofGroups groups).HasAlternatives := by
  intro a f hf
  obtain ⟨g, hg, ha⟩ := mem_facts.mp hf
  have hpos := List.length_pos_of_mem (List.mem_of_getElem? ha)
  rw [range_ofGroups hg]
  omega

theorem foldlM_requireAtom (atoms : List Atom) (sets : ValueSets) :
    atoms.foldlM d.requireAtom sets = (atoms.flatMap d.facts).foldlM require sets := by
  induction atoms generalizing sets with
  | nil => rfl
  | cons a atoms ih =>
      rw [List.foldlM_cons, List.flatMap_cons, List.foldlM_append]
      exact bind_congr ih

theorem Shows.factsHold_flatMap (h : d.Shows σ s) (atoms : List Atom) :
    FactsHold σ (atoms.flatMap d.facts) ↔ ∀ a ∈ atoms, d.facts a = [] ∨ a ∈ s := by
  simp only [FactsHold, List.mem_flatMap]
  constructor
  · intro hall a ha
    cases hf : d.facts a with
    | nil => exact .inl rfl
    | cons f fs =>
        have hmem : f ∈ d.facts a := hf ▸ List.mem_cons_self
        exact .inr ((h.holds_iff a f hmem).mp (hall f ⟨a, ha, hmem⟩))
  · rintro hall f ⟨a, ha, hf⟩
    refine (h.holds_iff a f hf).mpr ((hall a ha).resolve_left fun he => ?_)
    rw [he] at hf
    cases hf

/-- The facts whose variables are restricted already. -/
theorem mem_keys_of_mem_filter {fs : List Fact} :
    ∀ f ∈ fs.filter fun f => (sets.lookup f.var).isSome, f.var ∈ sets.map (·.1) := by
  intro f hf
  have hsome := (List.mem_filter.mp hf).2
  by_contra hk
  rw [← lookup_eq_none_iff_not_mem] at hk
  simp [hk] at hsome

theorem not_admits_of_excludeAtom {a : Atom} (hp : sets.Proper)
    (h : d.excludeAtom sets a = none) (hs : d.Shows σ s) (hσ : sets.Admits σ) : a ∈ s := by
  simp only [excludeAtom] at h
  split at h
  next => split at h <;> cases h
  next restricted _ =>
    obtain ⟨f, hf, hfσ⟩ := not_admits_of_foldlM_exclude hp mem_keys_of_mem_filter h hσ
    exact (hs.holds_iff a f (List.mem_filter.mp hf).1).mp hfσ

theorem excludeAtom_spec {a : Atom} (hd : d.HasAlternatives) (hp : sets.Proper)
    (h : d.excludeAtom sets a = some sets') :
    sets'.Proper ∧ ∀ σ s, d.Shows σ s →
      (sets'.Admits σ ↔ sets.Admits σ ∧ (d.facts a = [] ∨ a ∉ s)) := by
  simp only [excludeAtom] at h
  split at h
  next hfree =>
    split at h
    next hmin =>
      have hnil : d.facts a = [] := by
        by_contra hne
        have hsome := (List.isSome_minOn?_iff (f := fun f : Fact => d.range f.var)).mpr hne
        rw [hmin] at hsome
        cases hsome
      obtain rfl := Option.some.inj h
      exact ⟨hp, fun σ s _ => by simp [hnil]⟩
    next f hmin =>
      have hf : f ∈ d.facts a := List.minOn?_mem hmin
      have hlookup : sets.lookup f.var = none := by
        simpa only [Bool.not_eq_true, Option.isSome_eq_false_iff, Option.isNone_iff_eq_none]
          using List.filter_eq_nil_iff.mp hfree f hf
      obtain rfl := Option.some.inj h
      have hmem : ∀ x, x ∈ (List.range (d.range f.var)).filter (· ≠ f.value) ↔
          x < d.range f.var ∧ x ≠ f.value := by simp
      refine ⟨hp.append hlookup (List.nodup_range.filter _) fun hempty => ?_, fun σ s hs => ?_⟩
      · have hrange := hd a f hf
        have h0 := (hmem 0).not.mp (by rw [hempty]; simp)
        have h1 := (hmem 1).not.mp (by rw [hempty]; simp)
        omega
      · have hlt := hs.lt_range a f hf
        have hiff := hs.holds_iff a f hf
        have hne : d.facts a ≠ [] := List.ne_nil_of_mem hf
        rw [admits_append]
        simp only [Admits, List.mem_singleton, forall_eq, hmem, hlt, true_and, hne, false_or,
          ← hiff, Fact.Holds]
  next restricted hne =>
    obtain ⟨hp', hiff⟩ := foldlM_exclude_spec hp mem_keys_of_mem_filter h
    refine ⟨hp', fun σ s hs => ?_⟩
    rw [hiff]
    refine and_congr_right fun _ => ?_
    obtain ⟨f, hf⟩ := List.exists_mem_of_ne_nil _ hne
    have hfa := (List.mem_filter.mp hf).1
    have hfacts : d.facts a ≠ [] := List.ne_nil_of_mem hfa
    simp only [hfacts, false_or]
    constructor
    · exact fun hall ha => hall f hf ((hs.holds_iff a f hfa).mpr ha)
    · exact fun ha g hg hgσ => ha ((hs.holds_iff a g (List.mem_filter.mp hg).1).mp hgσ)

theorem foldlM_excludeAtom_spec {atoms : List Atom} (hd : d.HasAlternatives) (hp : sets.Proper)
    (h : atoms.foldlM d.excludeAtom sets = some sets') :
    sets'.Proper ∧ ∀ σ s, d.Shows σ s →
      (sets'.Admits σ ↔ sets.Admits σ ∧ ∀ a ∈ atoms, d.facts a = [] ∨ a ∉ s) := by
  induction atoms generalizing sets with
  | nil =>
      obtain rfl := Option.some.inj h
      exact ⟨hp, fun σ s _ => by simp⟩
  | cons a atoms ih =>
      rw [List.foldlM_cons] at h
      cases hr : d.excludeAtom sets a with
      | none => rw [hr] at h; cases h
      | some next =>
          obtain ⟨hp', hiff⟩ := excludeAtom_spec hd hp hr
          rw [hr] at h
          obtain ⟨hp'', hiff'⟩ := ih hp' h
          refine ⟨hp'', fun σ s hs => ?_⟩
          rw [hiff' σ s hs, hiff σ s hs, List.forall_mem_cons, and_assoc]

theorem not_admits_of_foldlM_excludeAtom {atoms : List Atom} (hd : d.HasAlternatives)
    (hp : sets.Proper) (h : atoms.foldlM d.excludeAtom sets = none) (hs : d.Shows σ s)
    (hσ : sets.Admits σ) : ∃ a ∈ atoms, a ∈ s := by
  induction atoms generalizing sets with
  | nil => cases h
  | cons a atoms ih =>
      rw [List.foldlM_cons] at h
      by_cases ha : a ∈ s
      · exact ⟨a, List.mem_cons_self, ha⟩
      · cases hr : d.excludeAtom sets a with
        | none => exact ⟨a, List.mem_cons_self, not_admits_of_excludeAtom hp hr hs hσ⟩
        | some next =>
            obtain ⟨hp', hiff⟩ := excludeAtom_spec hd hp hr
            rw [hr] at h
            obtain ⟨b, hb, hbs⟩ := ih hp' h ((hiff σ s hs).mpr ⟨hσ, .inr ha⟩)
            exact ⟨b, List.mem_cons_of_mem a hb, hbs⟩

private theorem forall_literals {p : Literal → Prop} (literals : List Literal) :
    (∀ l ∈ literals, p l) ↔
      (∀ a ∈ (literals.filter (!·.negated)).map (·.atom), p a.positive) ∧
        ∀ a ∈ (literals.filter (·.negated)).map (·.atom), p a.negative := by
  simp only [List.mem_map, List.mem_filter]
  constructor
  · intro h
    refine ⟨?_, ?_⟩
    · rintro _ ⟨⟨a, n⟩, ⟨hl, hn⟩, rfl⟩
      obtain rfl : n = false := by simpa using hn
      exact h _ hl
    · rintro _ ⟨⟨a, n⟩, ⟨hl, hn⟩, rfl⟩
      obtain rfl : n = true := by simpa using hn
      exact h _ hl
  · rintro ⟨hp, hn⟩ ⟨a, n⟩ hl
    cases n with
    | false => exact hp a ⟨_, ⟨hl, rfl⟩, rfl⟩
    | true => exact hn a ⟨_, ⟨hl, rfl⟩, rfl⟩

/-- Literals that hold in a state do not contradict each other. -/
theorem not_allHold_of_restrict {literals : List Literal} (hd : d.HasAlternatives)
    (h : d.restrict literals = none) (hs : d.Shows σ s) : ¬ AllHold s literals := by
  intro hall
  obtain ⟨hpos, hneg⟩ := (forall_literals literals).mp hall
  simp only [Literal.holds_positive, Literal.holds_negative] at hpos hneg
  simp only [restrict] at h
  rw [foldlM_requireAtom] at h
  cases hr : List.foldlM require []
      (((literals.filter (!·.negated)).map (·.atom)).flatMap d.facts) with
  | none =>
      exact not_admits_of_foldlM_require proper_nil fixed_nil hr (admits_nil σ)
        ((hs.factsHold_flatMap _).mpr fun a ha => .inr (hpos a ha))
  | some next =>
      obtain ⟨hp, -, hiff⟩ := foldlM_require_spec proper_nil fixed_nil hr
      rw [hr] at h
      have hσ := (hiff σ).mpr
        ⟨admits_nil σ, (hs.factsHold_flatMap _).mpr fun a ha => .inr (hpos a ha)⟩
      obtain ⟨a, ha, has⟩ := not_admits_of_foldlM_excludeAtom hd hp h hs hσ
      exact hneg a ha has

theorem restrict_spec {literals : List Literal} (hd : d.HasAlternatives)
    (h : d.restrict literals = some sets) :
    sets.Proper ∧ ∀ σ s, d.Shows σ s →
      (sets.Admits σ ↔ ∀ l ∈ literals, d.facts l.atom = [] ∨ l.Holds s) := by
  simp only [restrict] at h
  rw [foldlM_requireAtom] at h
  cases hr : List.foldlM require []
      (((literals.filter (!·.negated)).map (·.atom)).flatMap d.facts) with
  | none => rw [hr] at h; cases h
  | some next =>
      obtain ⟨hp, -, hiff⟩ := foldlM_require_spec proper_nil fixed_nil hr
      rw [hr] at h
      obtain ⟨hp', hiff'⟩ := foldlM_excludeAtom_spec hd hp h
      refine ⟨hp', fun σ s hs => ?_⟩
      rw [hiff' σ s hs, hiff, hs.factsHold_flatMap, forall_literals]
      simp [Atom.positive, Atom.negative, Literal.Holds]

/-- A state in which all literals hold satisfies exactly one of the assignments. -/
theorem filter_assignments_eq_singleton {literals : List Literal} {as : List Assignment}
    (hd : d.HasAlternatives) (h : d.assignments? literals = some as) (hs : d.Shows σ s)
    (hall : AllHold s literals) :
    ∃ a, as.filter (fun a => decide (FactsHold σ a)) = [a] := by
  obtain ⟨sets, hsets, rfl⟩ := Option.map_eq_some_iff.mp h
  obtain ⟨hp, hiff⟩ := restrict_spec hd hsets
  exact filter_assignments_of_admits hp ((hiff σ s hs).mpr fun l hl => .inr (hall l hl))

/-- A state that satisfies one of the assignments is one in which all literals hold. -/
theorem allHold_of_factsHold {literals : List Literal} {as : List Assignment}
    (hd : d.HasAlternatives) (h : d.assignments? literals = some as) (hs : d.Shows σ s)
    (hcover : ∀ l ∈ literals, d.facts l.atom ≠ []) {a : Assignment} (ha : a ∈ as)
    (hσ : FactsHold σ a) : AllHold s literals := by
  obtain ⟨sets, hsets, rfl⟩ := Option.map_eq_some_iff.mp h
  obtain ⟨-, hiff⟩ := restrict_spec hd hsets
  intro l hl
  exact ((hiff σ s hs).mp (admits_of_factsHold ha hσ) l hl).resolve_left (hcover l hl)

/-- Only negative literals have several assignments. -/
theorem length_assignments?_of_positive {literals : List Literal} {as : List Assignment}
    (hpositive : ∀ l ∈ literals, l.negated = false) (h : d.assignments? literals = some as) :
    as.length = 1 := by
  obtain ⟨sets, hsets, rfl⟩ := Option.map_eq_some_iff.mp h
  have hnegative : literals.filter (·.negated) = [] := by
    simpa [List.filter_eq_nil_iff] using hpositive
  simp only [restrict, hnegative] at hsets
  rw [foldlM_requireAtom] at hsets
  cases hr : List.foldlM require []
      (((literals.filter (!·.negated)).map (·.atom)).flatMap d.facts) with
  | none => rw [hr] at hsets; cases hsets
  | some next =>
      obtain ⟨-, hfixed, -⟩ := foldlM_require_spec proper_nil fixed_nil hr
      rw [hr] at hsets
      obtain rfl := Option.some.inj hsets
      exact hfixed.length_assignments

/-- A single atom that is false restricts one of its variables, one with the fewest values. -/
theorem assignments?_negative (d : Dictionary) (a : Atom) :
    d.assignments? [a.negative] =
      some (match (d.facts a).minOn? fun f => d.range f.var with
        | none => ValueSets.assignments []
        | some f =>
            ValueSets.assignments [(f.var, (List.range (d.range f.var)).filter (· ≠ f.value))]) := by
  have hrestrict : d.restrict [a.negative] = [a].foldlM d.excludeAtom [] := rfl
  rw [assignments?, hrestrict]
  cases h : (d.facts a).minOn? fun f => d.range f.var <;> simp [excludeAtom, h]

theorem nodup_vars_of_mem_assignments? {literals : List Literal} {as : List Assignment}
    (hd : d.HasAlternatives) (h : d.assignments? literals = some as) {a : Assignment}
    (ha : a ∈ as) : (a.map (·.var)).Nodup := by
  obtain ⟨sets, hsets, rfl⟩ := Option.map_eq_some_iff.mp h
  obtain ⟨hp, -⟩ := restrict_spec hd hsets
  exact (map_var_perm_of_mem_assignments ha).nodup_iff.mpr hp.nodup

end Dictionary
end FiniteDomain

namespace FiniteDomain

namespace Encoder

/-- What the encoder needs to know about a state: a valuation of the variables
that shows it, and some valuation of the exclusive groups that does. -/
structure Shows (e : Encoder) (σ : Valuation) (s : Interpretation) : Prop where
  dictionary : e.dictionary.Shows σ s
  mutexes : ∃ μ, e.mutexes.Shows μ s

structure HasAlternatives (e : Encoder) : Prop where
  dictionary : e.dictionary.HasAlternatives
  mutexes : e.mutexes.HasAlternatives

/-- Every atom of the literals is encoded. -/
def Covers (e : Encoder) (literals : List Literal) : Prop :=
  ∀ l ∈ literals, e.dictionary.facts l.atom ≠ []

variable {e : Encoder} {σ : Valuation} {s : Interpretation}

theorem not_allHold_of_assignments {literals : List Literal} (he : e.HasAlternatives)
    (hs : e.Shows σ s) (h : e.assignments? literals = none) : ¬ AllHold s literals := by
  cases hm : e.mutexes.restrict literals with
  | none =>
      obtain ⟨μ, hμ⟩ := hs.mutexes
      exact Dictionary.not_allHold_of_restrict he.mutexes hm hμ
  | some sets =>
      rw [assignments?, hm] at h
      exact Dictionary.not_allHold_of_restrict he.dictionary (Option.map_eq_none_iff.mp h)
        hs.dictionary

theorem dictionary_of_assignments {literals : List Literal} {as : List Assignment}
    (h : e.assignments? literals = some as) : e.dictionary.assignments? literals = some as := by
  obtain ⟨sets, -, h⟩ := Option.bind_eq_some_iff.mp h
  exact h

theorem exists_assignment {literals : List Literal} (he : e.HasAlternatives)
    (hs : e.Shows σ s) (hall : AllHold s literals) :
    ∃ as, e.assignments? literals = some as ∧ ∃ a ∈ as, FactsHold σ a := by
  cases h : e.assignments? literals with
  | none => exact absurd hall (not_allHold_of_assignments he hs h)
  | some as =>
      obtain ⟨a, ha⟩ := Dictionary.filter_assignments_eq_singleton he.dictionary
        (dictionary_of_assignments h) hs.dictionary hall
      have hmem : a ∈ as.filter fun a => decide (FactsHold σ a) := ha ▸ List.mem_singleton_self a
      rw [List.mem_filter, decide_eq_true_eq] at hmem
      exact ⟨as, rfl, a, hmem⟩

theorem allHold_of_factsHold {literals : List Literal} {as : List Assignment} {a : Assignment}
    (he : e.HasAlternatives) (hs : e.Shows σ s) (hcover : e.Covers literals)
    (h : e.assignments? literals = some as) (ha : a ∈ as) (hσ : FactsHold σ a) :
    AllHold s literals :=
  Dictionary.allHold_of_factsHold he.dictionary (dictionary_of_assignments h) hs.dictionary
    hcover ha hσ

theorem nodup_vars {literals : List Literal} {as : List Assignment} {a : Assignment}
    (he : e.HasAlternatives) (h : e.assignments? literals = some as) (ha : a ∈ as) :
    (a.map (·.var)).Nodup :=
  Dictionary.nodup_vars_of_mem_assignments? he.dictionary (dictionary_of_assignments h) ha

theorem mem_negation {conditions : List (List Literal)} {a : Assignment} :
    a ∈ e.negation conditions ↔ ∃ literals, List.Forall₂ (· ∈ ·) literals conditions ∧
      ∃ as, e.assignments? (literals.map (·.negate)) = some as ∧ a ∈ as := by
  simp only [negation, List.mem_flatMap, mem_choices]
  refine exists_congr fun literals => and_congr_right fun _ => ?_
  cases e.assignments? (literals.map (·.negate)) <;> simp

/-- The cases of a negation cover the states in which no condition holds. -/
theorem exists_negation_iff {conditions : List (List Literal)} (he : e.HasAlternatives)
    (hs : e.Shows σ s) (hcover : ∀ c ∈ conditions, e.Covers c) :
    (∃ a ∈ e.negation conditions, FactsHold σ a) ↔ ∀ c ∈ conditions, ¬ AllHold s c := by
  constructor
  · rintro ⟨a, ha, hσ⟩
    obtain ⟨literals, hpick, as, has, haas⟩ := mem_negation.mp ha
    have hcovers : e.Covers (literals.map (·.negate)) := by
      intro l hl
      obtain ⟨m, hm, rfl⟩ := List.mem_map.mp hl
      obtain ⟨c, hc, hmc⟩ := exists_of_mem_forall₂ hpick hm
      exact hcover c hc m hmc
    have hall := allHold_of_factsHold he hs hcovers has haas hσ
    intro c hc hholds
    obtain ⟨l, hl, hlc⟩ := exists_of_mem_forall₂_right hpick hc
    have hneg := hall _ (List.mem_map_of_mem hl)
    rw [Literal.holds_negate] at hneg
    exact hneg (hholds l hlc)
  · intro hnone
    have hpick : ∃ literals, List.Forall₂ (· ∈ ·) literals conditions ∧
        ∀ l ∈ literals, ¬ l.Holds s := by
      clear hcover
      induction conditions with
      | nil => exact ⟨[], .nil, nofun⟩
      | cons c conditions ih =>
          obtain ⟨literals, hpick, hl⟩ := ih fun d hd => hnone d (List.mem_cons_of_mem c hd)
          have hc := hnone c List.mem_cons_self
          simp only [AllHold, not_forall] at hc
          obtain ⟨l, hlc, hl'⟩ := hc
          exact ⟨l :: literals, .cons hlc hpick, List.forall_mem_cons.mpr ⟨hl', hl⟩⟩
    obtain ⟨literals, hpick, hl⟩ := hpick
    have hall : AllHold s (literals.map (·.negate)) := by
      intro l hmem
      obtain ⟨m, hm, rfl⟩ := List.mem_map.mp hmem
      exact (Literal.holds_negate s m).mpr (hl m hm)
    obtain ⟨as, has, a, ha, hσ⟩ := exists_assignment he hs hall
    exact ⟨a, mem_negation.mpr ⟨literals, hpick, as, has, ha⟩, hσ⟩

end Encoder
end FiniteDomain
end FinitePlanning
