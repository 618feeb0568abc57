import FinitePlanning.Proofs.Encoding.Conditions
import FinitePlanning.Proofs.Semantics.Derivation

/-!
The table of the effects of an action. In the valuation of a state, a fact is set
if one of its atoms is added, or if it stands for none of the atoms, one of them
is true and deleted, and none is added.
-/

namespace FinitePlanning
namespace FiniteDomain

namespace EffectTable

/-- One of the conditions under which a fact is made true. -/
def HasCase (t : EffectTable) (f : Fact) (a : Assignment) : Prop := ∃ as, (f, as) ∈ t ∧ a ∈ as

/-- The table makes a fact true in a valuation. -/
def Sets (t : EffectTable) (σ : Valuation) (f : Fact) : Prop :=
  ∃ a, t.HasCase f a ∧ FactsHold σ a

theorem hasCase_append {t u : EffectTable} {f : Fact} {a : Assignment} :
    HasCase (t ++ u) f a ↔ t.HasCase f a ∨ u.HasCase f a := by
  simp only [HasCase, List.mem_append, or_and_right, exists_or]

theorem sets_append {t u : EffectTable} {σ : Valuation} {f : Fact} :
    Sets (t ++ u) σ f ↔ t.Sets σ f ∨ u.Sets σ f := by
  simp only [Sets, hasCase_append, or_and_right, exists_or]

theorem hasCase_cons {p : Fact × List Assignment} {t : EffectTable} {f : Fact} {a : Assignment} :
    HasCase (p :: t) f a ↔ (f = p.1 ∧ a ∈ p.2) ∨ HasCase t f a := by
  rw [← List.singleton_append, hasCase_append]
  refine or_congr_left ⟨?_, ?_⟩
  · rintro ⟨as, h, ha⟩
    obtain rfl := List.mem_singleton.mp h
    exact ⟨rfl, ha⟩
  · rintro ⟨rfl, ha⟩
    exact ⟨p.2, List.mem_singleton_self _, ha⟩

/-- Collecting the conditions of each fact loses none of them. -/
theorem hasCase_ofEntries {t : EffectTable} {f : Fact} {a : Assignment} :
    (ofEntries t).HasCase f a ↔ t.HasCase f a := by
  have hsort : t.HasCase f a ↔
      HasCase (t.mergeSort fun a b => (compare a.1 b.1).isLE) f a := by
    simp only [HasCase, List.mem_mergeSort]
  rw [hsort, ofEntries]
  generalize t.mergeSort (fun a b => (compare a.1 b.1).isLE) = l
  induction l with
  | nil => rfl
  | cons p l ih =>
      rw [List.foldr_cons, hasCase_cons]
      refine Iff.trans ?_ (or_congr_right ih)
      obtain ⟨h, cs⟩ := p
      dsimp only
      split
      next g bs rest heq =>
        rw [heq]
        split
        next he =>
          subst he
          simp only [hasCase_cons, List.mem_append]
          rw [and_or_left, or_assoc]
        next => rw [hasCase_cons]
      next heq => rw [heq, hasCase_cons]

theorem sets_ofEntries {t : EffectTable} {σ : Valuation} {f : Fact} :
    (ofEntries t).Sets σ f ↔ t.Sets σ f := by
  simp only [Sets, hasCase_ofEntries]

theorem mentions_of_hasCase {t : EffectTable} {f : Fact} {a : Assignment}
    (h : t.HasCase f a) : t.mentions f = true := by
  obtain ⟨as, h, -⟩ := h
  exact List.any_eq_true.mpr ⟨_, h, decide_eq_true rfl⟩

theorem exists_entry_of_mem_ofEntries {t : EffectTable} {f : Fact} {as : List Assignment}
    (h : (f, as) ∈ ofEntries t) : ∃ bs, (f, bs) ∈ t := by
  have hsort : ∀ bs, (f, bs) ∈ t.mergeSort (fun a b => (compare a.1 b.1).isLE) →
      (f, bs) ∈ t := fun bs hb => List.mem_mergeSort.mp hb
  rw [ofEntries] at h
  revert hsort h
  generalize t.mergeSort (fun a b => (compare a.1 b.1).isLE) = l
  intro h hsort
  suffices hl : ∃ bs, (f, bs) ∈ l from hl.imp hsort
  clear hsort
  induction l generalizing as with
  | nil => cases h
  | cons p l ih =>
      obtain ⟨g, bs⟩ := p
      rw [List.foldr_cons] at h
      dsimp only at h
      split at h
      next g' cs rest heq =>
        split at h
        next =>
          rcases List.mem_cons.mp h with he | h
          · obtain ⟨rfl, -⟩ := Prod.mk.inj he
            exact ⟨bs, List.mem_cons_self⟩
          · obtain ⟨ds, hd⟩ := ih (heq ▸ List.mem_cons_of_mem _ h)
            exact ⟨ds, List.mem_cons_of_mem _ hd⟩
        next =>
          rcases List.mem_cons.mp h with he | h
          · obtain ⟨rfl, -⟩ := Prod.mk.inj he
            exact ⟨bs, List.mem_cons_self⟩
          · obtain ⟨ds, hd⟩ := ih h
            exact ⟨ds, List.mem_cons_of_mem _ hd⟩
      next =>
        obtain ⟨rfl, -⟩ := Prod.mk.inj (List.mem_singleton.mp h)
        exact ⟨bs, List.mem_cons_self⟩

end EffectTable

namespace Encoder

open EffectTable

variable {e : Encoder} {σ : Valuation} {s : Interpretation}

theorem mem_filterMap_effect {xs : List ConditionalEffect} {y : EncodedEffect} :
    y ∈ xs.filterMap e.effect? ↔ ∃ x ∈ xs, ∃ as, e.assignments? x.condition = some as ∧
      y = ⟨x.condition, as, e.dictionary.facts x.atom⟩ := by
  simp only [List.mem_filterMap, effect?, Option.map_eq_some_iff]
  refine exists_congr fun x => and_congr_right fun _ => exists_congr fun as => ?_
  exact and_congr_right fun _ => eq_comm

theorem hasCase_entries {xs : List ConditionalEffect} {f : Fact} {a : Assignment} :
    HasCase (entries (xs.filterMap e.effect?)) f a ↔ ∃ x ∈ xs, ∃ as,
      e.assignments? x.condition = some as ∧ f ∈ e.dictionary.facts x.atom ∧ a ∈ as := by
  simp only [HasCase, entries, List.mem_flatMap, mem_filterMap_effect, List.mem_map,
    Prod.mk.injEq]
  constructor
  · rintro ⟨as, ⟨_, ⟨x, hx, bs, hbs, rfl⟩, g, hg, rfl, rfl⟩, ha⟩
    exact ⟨x, hx, bs, hbs, hg, ha⟩
  · rintro ⟨x, hx, as, has, hf, ha⟩
    exact ⟨as, ⟨_, ⟨x, hx, as, has, rfl⟩, f, hf, rfl, rfl⟩, ha⟩

/-- The entries of a list of effects set the facts of the atoms that it sets. -/
theorem sets_entries (he : e.HasAlternatives) (hs : e.Shows σ s)
    {xs : List ConditionalEffect} (hcover : ∀ x ∈ xs, e.Covers x.condition) {f : Fact} :
    Sets (entries (xs.filterMap e.effect?)) σ f ↔
      ∃ x ∈ xs, AllHold s x.condition ∧ f ∈ e.dictionary.facts x.atom := by
  simp only [Sets, hasCase_entries]
  constructor
  · rintro ⟨a, ⟨x, hx, as, has, hf, ha⟩, hσ⟩
    exact ⟨x, hx, allHold_of_factsHold he hs (hcover x hx) has ha hσ, hf⟩
  · rintro ⟨x, hx, hall, hf⟩
    obtain ⟨as, has, a, ha, hσ⟩ := exists_assignment he hs hall
    exact ⟨a, ⟨x, hx, as, has, hf, ha⟩, hσ⟩

theorem mem_conditionsOn {xs : List ConditionalEffect} {var : Nat} {c : List Literal} :
    c ∈ conditionsOn (xs.filterMap e.effect?) var ↔ ∃ x ∈ xs, x.condition = c ∧
      (∃ as, e.assignments? x.condition = some as) ∧
        ∃ f ∈ e.dictionary.facts x.atom, f.var = var := by
  simp only [conditionsOn, List.mem_flatMap, mem_filterMap_effect, List.mem_map, List.mem_filter,
    decide_eq_true_eq]
  constructor
  · rintro ⟨_, ⟨x, hx, as, has, rfl⟩, f, ⟨hf, hvar⟩, rfl⟩
    exact ⟨x, hx, rfl, ⟨as, has⟩, f, hf, hvar⟩
  · rintro ⟨x, hx, rfl, ⟨as, has⟩, f, hf, hvar⟩
    exact ⟨_, ⟨x, hx, as, has, rfl⟩, f, ⟨hf, hvar⟩, rfl⟩

theorem exists_negation_conditionsOn (he : e.HasAlternatives) (hs : e.Shows σ s)
    {xs : List ConditionalEffect} (hcover : ∀ x ∈ xs, e.Covers x.condition) {var : Nat} :
    (∃ a ∈ e.negation (conditionsOn (xs.filterMap e.effect?) var), FactsHold σ a) ↔
      ∀ x ∈ xs, (∃ f ∈ e.dictionary.facts x.atom, f.var = var) → ¬ AllHold s x.condition := by
  rw [exists_negation_iff he hs]
  · constructor
    · intro h x hx hf hall
      obtain ⟨as, has, -⟩ := exists_assignment he hs hall
      exact h _ (mem_conditionsOn.mpr ⟨x, hx, rfl, ⟨as, has⟩, hf⟩) hall
    · rintro h c hc
      obtain ⟨x, hx, rfl, -, hf⟩ := mem_conditionsOn.mp hc
      exact h x hx hf
  · rintro c hc
    obtain ⟨x, hx, rfl, -, -⟩ := mem_conditionsOn.mp hc
    exact hcover x hx

theorem exists_deletionCases {noAdd : List Assignment}
    (hn : ∀ b ∈ noAdd, (b.map (·.var)).Nodup) {f : Fact} {a : Assignment} :
    (∃ c ∈ deletionCases noAdd f a, FactsHold σ c) ↔
      FactsHold σ a ∧ f.Holds σ ∧ ∃ b ∈ noAdd, FactsHold σ b := by
  simp only [deletionCases]
  split
  next hc =>
    simp only [List.not_mem_nil, false_and, exists_false, false_iff]
    rintro ⟨ha, hf, -⟩
    rw [Assignment.not_contradicts ha hf] at hc
    cases hc
  next hc =>
    have hc : a.contradicts f = false := by simpa using hc
    simp only [List.mem_filterMap]
    constructor
    · rintro ⟨c, ⟨b, hb, hu⟩, hσ⟩
      have h := (Assignment.factsHold_union (hn b hb) hu).mp hσ
      have hf := (Assignment.factsHold_assign hc).mp h.1
      exact ⟨hf.1, hf.2, b, hb, h.2⟩
    · rintro ⟨ha, hf, b, hb, hσ⟩
      have hassign : FactsHold σ (a.assign f) := (Assignment.factsHold_assign hc).mpr ⟨ha, hf⟩
      obtain ⟨c, hu⟩ := Assignment.exists_union hassign hσ
      exact ⟨c, ⟨b, hb, hu⟩, (Assignment.factsHold_union (hn b hb) hu).mpr ⟨hassign, hσ⟩⟩

theorem nodup_vars_of_mem_negation (he : e.HasAlternatives) {conditions : List (List Literal)}
    {a : Assignment} (ha : a ∈ e.negation conditions) : (a.map (·.var)).Nodup := by
  obtain ⟨literals, -, as, has, ha⟩ := mem_negation.mp ha
  exact nodup_vars he has ha

theorem hasCase_deletions {adds deletes : List EncodedEffect} {g : Fact} {c : Assignment} :
    HasCase (e.deletions adds deletes) g c ↔
      ∃ p ∈ EffectTable.ofEntries (entries deletes), ∃ a ∈ p.2,
        c ∈ deletionCases (e.negation (conditionsOn adds p.1.var)) p.1 a ∧
          g = ⟨p.1.var, e.dictionary.noneOfThose p.1.var⟩ := by
  let deleted := EffectTable.ofEntries (entries deletes)
  let others (var : Nat) := e.negation (conditionsOn adds var)
  have hlookup : ∀ p ∈ deleted, (((dropRepeats (deleted.map (·.1.var))).map fun var =>
      (var, others var)).lookup p.1.var).getD [] = others p.1.var := by
    intro p hp
    rw [lookup_map_self (f := others)
      (mem_dropRepeats.mpr (List.mem_map_of_mem (f := (·.1.var)) hp))]
    rfl
  simp only [HasCase, deletions, List.mem_flatMap, List.mem_map]
  constructor
  · rintro ⟨as, ⟨p, hp, d, ⟨a, ha, hd⟩, heq⟩, hc⟩
    obtain ⟨rfl, rfl⟩ := Prod.mk.inj heq
    obtain rfl := List.mem_singleton.mp hc
    rw [hlookup p hp] at hd
    exact ⟨p, hp, a, ha, hd, rfl⟩
  · rintro ⟨p, hp, a, ha, hc, rfl⟩
    refine ⟨[c], ⟨p, hp, c, ⟨a, ha, ?_⟩, rfl⟩, List.mem_singleton_self c⟩
    rw [hlookup p hp]
    exact hc

/-- A variable is set to none of its atoms if one that is true is deleted and none
is added. -/
theorem sets_deletions (he : e.HasAlternatives) (hs : e.Shows σ s)
    {adds deletes : List ConditionalEffect} (hadds : ∀ x ∈ adds, e.Covers x.condition)
    (hdeletes : ∀ x ∈ deletes, e.Covers x.condition) {g : Fact} :
    Sets (e.deletions (adds.filterMap e.effect?) (deletes.filterMap e.effect?)) σ g ↔
      ∃ f, (∃ x ∈ deletes, AllHold s x.condition ∧ f ∈ e.dictionary.facts x.atom) ∧
        f.Holds σ ∧
        (∀ x ∈ adds, (∃ h ∈ e.dictionary.facts x.atom, h.var = f.var) →
          ¬ AllHold s x.condition) ∧
        g = ⟨f.var, e.dictionary.noneOfThose f.var⟩ := by
  let deleted := EffectTable.ofEntries (entries (deletes.filterMap e.effect?))
  have hnodup : ∀ var, ∀ b ∈ e.negation (conditionsOn (adds.filterMap e.effect?) var),
      (b.map (·.var)).Nodup := fun var b hb => nodup_vars_of_mem_negation he hb
  have hdeleted : ∀ f, Sets deleted σ f ↔
      ∃ x ∈ deletes, AllHold s x.condition ∧ f ∈ e.dictionary.facts x.atom := fun f => by
    rw [sets_ofEntries, sets_entries he hs hdeletes]
  simp only [Sets, hasCase_deletions]
  constructor
  · rintro ⟨c, ⟨p, hp, a, ha, hc, rfl⟩, hσ⟩
    obtain ⟨haσ, hf, hno⟩ := (exists_deletionCases (hnodup p.1.var)).mp ⟨c, hc, hσ⟩
    exact ⟨p.1, (hdeleted p.1).mp ⟨a, ⟨p.2, hp, ha⟩, haσ⟩, hf,
      (exists_negation_conditionsOn he hs hadds).mp hno, rfl⟩
  · rintro ⟨f, hx, hf, hno, rfl⟩
    obtain ⟨a, ⟨as, hp, ha⟩, haσ⟩ := (hdeleted f).mpr hx
    obtain ⟨c, hc, hσ⟩ := (exists_deletionCases (hnodup f.var)).mpr
      ⟨haσ, hf, (exists_negation_conditionsOn he hs hadds).mpr hno⟩
    exact ⟨c, ⟨(f, as), hp, a, ha, hc, rfl⟩, hσ⟩

theorem fact_of_mem_entries {xs : List ConditionalEffect} {f : Fact} {as : List Assignment}
    (h : (f, as) ∈ entries (xs.filterMap e.effect?)) :
    ∃ x ∈ xs, f ∈ e.dictionary.facts x.atom := by
  obtain ⟨y, hy, h⟩ := List.mem_flatMap.mp h
  obtain ⟨x, hx, bs, -, rfl⟩ := mem_filterMap_effect.mp hy
  obtain ⟨g, hg, heq⟩ := List.mem_map.mp h
  obtain ⟨rfl, -⟩ := Prod.mk.inj heq
  exact ⟨x, hx, hg⟩

/-- The table mentions facts of added atoms, and the values for none of the atoms of the variables
of deleted ones. -/
theorem fact_of_mem_effectTable {a : GroundAction} {f : Fact} {as : List Assignment}
    (h : (f, as) ∈ e.effectTable a) : (∃ x ∈ a.adds, f ∈ e.dictionary.facts x.atom) ∨
      ∃ x ∈ a.deletes, ∃ g ∈ e.dictionary.facts x.atom,
        f = ⟨g.var, e.dictionary.noneOfThose g.var⟩ := by
  obtain ⟨bs, h⟩ := exists_entry_of_mem_ofEntries h
  rcases List.mem_append.mp h with h | h
  · exact .inl (fact_of_mem_entries h)
  · right
    obtain ⟨⟨g, gs⟩, hg, h⟩ := List.mem_flatMap.mp h
    obtain ⟨c, -, heq⟩ := List.mem_map.mp h
    obtain ⟨rfl, -⟩ := Prod.mk.inj heq
    obtain ⟨ds, hd⟩ := exists_entry_of_mem_ofEntries hg
    obtain ⟨x, hx, hg⟩ := fact_of_mem_entries hd
    exact ⟨x, hx, g, hg, rfl⟩

/-- All atoms that an action mentions are encoded. -/
structure CoversAction (e : Encoder) (a : GroundAction) : Prop where
  precondition : e.Covers a.precondition
  adds : ∀ x ∈ a.adds, e.Covers x.condition
  deletes : ∀ x ∈ a.deletes, e.Covers x.condition

theorem sets_effectTable (he : e.HasAlternatives) (hs : e.Shows σ s) {a : GroundAction}
    (ha : e.CoversAction a) {g : Fact} :
    (e.effectTable a).Sets σ g ↔
      (∃ x ∈ a.adds, AllHold s x.condition ∧ g ∈ e.dictionary.facts x.atom) ∨
      ∃ f, (∃ x ∈ a.deletes, AllHold s x.condition ∧ f ∈ e.dictionary.facts x.atom) ∧
        f.Holds σ ∧
        (∀ x ∈ a.adds, (∃ h ∈ e.dictionary.facts x.atom, h.var = f.var) →
          ¬ AllHold s x.condition) ∧
        g = ⟨f.var, e.dictionary.noneOfThose f.var⟩ := by
  rw [effectTable, sets_ofEntries, sets_append, sets_entries he hs ha.adds,
    sets_deletions he hs ha.adds ha.deletes]

end Encoder
end FiniteDomain
end FinitePlanning
