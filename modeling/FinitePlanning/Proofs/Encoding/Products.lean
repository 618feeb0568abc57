import FinitePlanning.Proofs.Encoding.Conditions
import FinitePlanning.Proofs.Encoding.Successor

/-!
Conditions are multiplied out exactly. In a valuation that shows each atom in the same way on all of
its variables, a conjunction of literals holds if and only if one of its assignments is contained in
the valuation, and then no other one is. The negation of a list of conditions has an assignment for
each such valuation that respects the exclusive groups and in which no condition holds.
-/

namespace FinitePlanning
namespace FiniteDomain

namespace Dictionary

variable {d : Dictionary} {σ : Valuation} {literals : List Literal} {as : List Assignment}

/-- A valuation that gives each variable one of its values, so that the facts of an atom agree. -/
structure IsState (d : Dictionary) (σ : Valuation) : Prop where
  lt_range : ∀ var < d.ranges.size, σ var < d.range var
  agree : ∀ a, ∀ f ∈ d.facts a, ∀ g ∈ d.facts a, f.Holds σ → g.Holds σ

/-- The atoms whose facts hold. -/
def trueAtoms (d : Dictionary) (σ : Valuation) : Interpretation := {a | ∃ f ∈ d.facts a, f.Holds σ}

theorem IsState.shows {groups : List (List Atom)} (h : (ofGroups groups).IsState σ) :
    (ofGroups groups).Shows σ ((ofGroups groups).trueAtoms σ) where
  holds_iff a f hf := ⟨fun hholds => ⟨f, hf, hholds⟩, fun ⟨g, hg, hholds⟩ =>
    h.agree a g hg f hf hholds⟩
  lt_range _ f hf := h.lt_range f.var (size_ranges groups ▸ (lt_of_mem_facts hf).1)

/-- States with exclusive groups have such valuations. -/
theorem isState_encodeState {groups : List (List Atom)} {s : Interpretation}
    (hn : ∀ g ∈ groups, g.Nodup) (hs : Exclusive groups s) :
    (ofGroups groups).IsState (encodeState groups s) where
  lt_range var hvar := by
    rw [size_ranges] at hvar
    have hgroup := List.getElem?_eq_getElem hvar
    rw [range_ofGroups hgroup, encodeState, List.getD_eq_getElem?_getD, hgroup]
    exact Nat.lt_succ_of_le groupValue_le
  agree a f hf g hg hholds := by
    have hshows := shows_encodeState hn hs
    exact (hshows.holds_iff a g hg).mpr ((hshows.holds_iff a f hf).mp hholds)

/-- Assignments over the same variables. A state contains one of them if the literals hold in it,
and none otherwise. -/
structure MultipliesOut (d : Dictionary) (literals : List Literal) (as : List Assignment) :
    Prop where
  ne_nil : as ≠ []
  vars : ∃ vars : List Nat, vars.Nodup ∧ ∀ a ∈ as, (a.map (·.var)).Perm vars
  single : ∀ σ, d.IsState σ → AllHold (d.trueAtoms σ) literals →
    ∃ a, as.filter (fun a => decide (FactsHold σ a)) = [a]
  none : ∀ σ, d.IsState σ → ¬ AllHold (d.trueAtoms σ) literals →
    as.filter (fun a => decide (FactsHold σ a)) = []

theorem multipliesOut_of_assignments? {groups : List (List Atom)}
    (h : (ofGroups groups).assignments? literals = some as)
    (hcover : ∀ l ∈ literals, (ofGroups groups).facts l.atom ≠ []) :
    (ofGroups groups).MultipliesOut literals as := by
  have hd := hasAlternatives_ofGroups groups
  obtain ⟨sets, hsets, rfl⟩ := Option.map_eq_some_iff.mp h
  obtain ⟨hp, -⟩ := restrict_spec hd hsets
  refine ⟨?_, ⟨sets.map (·.1), hp.nodup, fun a ha => ValueSets.map_var_perm_of_mem_assignments ha⟩,
    fun σ hσ => filter_assignments_eq_singleton hd h hσ.shows, fun σ hσ hnot => ?_⟩
  · obtain ⟨σ, hσ⟩ := hp.exists_admits
    obtain ⟨a, ha⟩ := ValueSets.filter_assignments_of_admits hp hσ
    intro hempty
    rw [hempty] at ha
    cases ha
  · rw [List.filter_eq_nil_iff]
    exact fun a ha hholds =>
      hnot (allHold_of_factsHold hd h hσ.shows hcover ha (of_decide_eq_true hholds))

end Dictionary

section Groups

variable {groups mutexGroups : List (List Atom)}

/-- A valuation in which at most one atom of each exclusive group is true. -/
structure IsExclusiveState (groups mutexGroups : List (List Atom)) (σ : Valuation) : Prop where
  isState : (Dictionary.ofGroups groups).IsState σ
  exclusive : Exclusive mutexGroups ((Dictionary.ofGroups groups).trueAtoms σ)

theorem IsExclusiveState.shows (hn : ∀ g ∈ mutexGroups, g.Nodup) {σ : Valuation}
    (h : IsExclusiveState groups mutexGroups σ) :
    (encoderOf groups mutexGroups).Shows σ ((Dictionary.ofGroups groups).trueAtoms σ) :=
  ⟨h.isState.shows, _, Dictionary.shows_encodeState hn h.exclusive⟩

/-- The valuation of a state with exclusive groups shows no other atoms. -/
theorem isExclusiveState_encodeState {s : Interpretation} (hn : ∀ g ∈ groups, g.Nodup)
    (hs : Exclusive groups s) (hexclusive : Exclusive mutexGroups s) :
    IsExclusiveState groups mutexGroups (encodeState groups s) where
  isState := Dictionary.isState_encodeState hn hs
  exclusive := by
    have hsubset : ∀ a ∈ (Dictionary.ofGroups groups).trueAtoms (encodeState groups s), a ∈ s := by
      rintro a ⟨f, hf, hholds⟩
      exact ((Dictionary.shows_encodeState hn hs).holds_iff a f hf).mp hholds
    exact fun g hg a ha b hb has hbs => hexclusive g hg a ha b hb (hsubset a has) (hsubset b hbs)

/-- Conditions are multiplied out exactly, and so are their negations in the states that respect the
exclusive groups. -/
theorem conditions_are_multiplied_out (hn : ∀ g ∈ mutexGroups, g.Nodup) :
    (∀ literals : List Literal, (∀ l ∈ literals, (Dictionary.ofGroups groups).facts l.atom ≠ []) →
      ((Dictionary.ofGroups groups).assignments? literals = none →
        ∀ σ, (Dictionary.ofGroups groups).IsState σ →
          ¬ AllHold ((Dictionary.ofGroups groups).trueAtoms σ) literals) ∧
      ∀ as, (Dictionary.ofGroups groups).assignments? literals = some as →
        (Dictionary.ofGroups groups).MultipliesOut literals as) ∧
    ∀ conditions : List (List Literal),
      (∀ c ∈ conditions, ∀ l ∈ c, (Dictionary.ofGroups groups).facts l.atom ≠ []) →
      (∀ σ, IsExclusiveState groups mutexGroups σ →
        ((∃ a ∈ (encoderOf groups mutexGroups).negation conditions, FactsHold σ a) ↔
          ∀ c ∈ conditions, ¬ AllHold ((Dictionary.ofGroups groups).trueAtoms σ) c)) ∧
      ((encoderOf groups mutexGroups).negation conditions = [] →
        ∀ σ, IsExclusiveState groups mutexGroups σ →
          ∃ c ∈ conditions, AllHold ((Dictionary.ofGroups groups).trueAtoms σ) c) := by
  have hd : (encoderOf groups mutexGroups).HasAlternatives :=
    ⟨Dictionary.hasAlternatives_ofGroups groups, Dictionary.hasAlternatives_ofGroups mutexGroups⟩
  refine ⟨fun literals hcover => ⟨fun h σ hσ => ?_, fun as h =>
    Dictionary.multipliesOut_of_assignments? h hcover⟩, fun conditions hcover => ?_⟩
  · exact Dictionary.not_allHold_of_restrict hd.dictionary (Option.map_eq_none_iff.mp h) hσ.shows
  · have hnegation := fun σ (hσ : IsExclusiveState groups mutexGroups σ) =>
      Encoder.exists_negation_iff hd (hσ.shows hn) hcover
    refine ⟨hnegation, fun hempty σ hσ => ?_⟩
    by_contra hnone
    obtain ⟨a, ha, -⟩ := (hnegation σ hσ).mpr fun c hc hholds => hnone ⟨c, hc, hholds⟩
    rw [hempty] at ha
    exact List.not_mem_nil ha

/-- Two variables for a lamp that is off, dimmed or bright. -/
def lampGroups : List (List Atom) :=
  [[.named "off" [], .named "dimmed" []], [.named "off" [], .named "bright" []]]

/-- What is true of a dimmed lamp. -/
def dimmed : Interpretation := {.named "dimmed" []}

/-- A lamp that is not off is dimmed or bright, and the variables say which one. -/
theorem lamp_is_multiplied_out :
    IsExclusiveState lampGroups lampGroups (encodeState lampGroups dimmed) ∧
    (∃ as,
      (Dictionary.ofGroups lampGroups).assignments? [(Atom.named "off" []).negative] = some as ∧
      ∃ a, as.filter (fun a => decide (FactsHold (encodeState lampGroups dimmed) a)) = [a]) ∧
    ∃ a ∈ (encoderOf lampGroups lampGroups).negation [[(Atom.named "off" []).positive]],
      FactsHold (encodeState lampGroups dimmed) a := by
  have hn : ∀ g ∈ lampGroups, g.Nodup := by decide
  have hexclusive : Exclusive lampGroups dimmed := fun _ _ _ _ _ _ ha hb => Eq.trans ha hb.symm
  have hstate := isExclusiveState_encodeState hn hexclusive hexclusive
  obtain ⟨f, hf⟩ := Dictionary.exists_fact (a := .named "off" [])
    ⟨_, List.mem_cons_self, List.mem_cons_self⟩
  have hcover : (Dictionary.ofGroups lampGroups).facts (.named "off" []) ≠ [] :=
    List.ne_nil_of_mem hf
  have hon : Atom.named "off" [] ∉
      (Dictionary.ofGroups lampGroups).trueAtoms (encodeState lampGroups dimmed) := by
    rintro ⟨g, hg, hholds⟩
    have hoff : Atom.named "off" [] = .named "dimmed" [] :=
      ((Dictionary.shows_encodeState hn hexclusive).holds_iff _ g hg).mp hholds
    exact absurd hoff (by decide)
  obtain ⟨hliterals, hnegation⟩ := @conditions_are_multiplied_out lampGroups lampGroups hn
  obtain ⟨hnone, hsome⟩ := hliterals [(Atom.named "off" []).negative]
    (List.forall_mem_singleton.mpr hcover)
  have hall : AllHold ((Dictionary.ofGroups lampGroups).trueAtoms (encodeState lampGroups dimmed))
      [(Atom.named "off" []).negative] :=
    List.forall_mem_singleton.mpr ((Literal.holds_negative _ _).mpr hon)
  refine ⟨hstate, ?_, ?_⟩
  · cases h : (Dictionary.ofGroups lampGroups).assignments? [(Atom.named "off" []).negative] with
    | none => exact absurd hall (hnone h _ hstate.isState)
    | some as => exact ⟨as, rfl, (hsome as h).single _ hstate.isState hall⟩
  · refine ((hnegation [[(Atom.named "off" []).positive]] ?_).1 _ hstate).mpr ?_
    · exact List.forall_mem_singleton.mpr (List.forall_mem_singleton.mpr hcover)
    · refine List.forall_mem_singleton.mpr fun hoff => hon ?_
      exact (Literal.holds_positive _ _).mp (hoff _ List.mem_cons_self)

end Groups

end FiniteDomain
end FinitePlanning
