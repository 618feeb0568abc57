import FinitePlanning.Proofs.Encoding.Operator

/-!
The facts that encoded conditions and effects mention. They are about values that exist, each is
allowed by one of the literals of its condition, and effects are on variables of the atoms that the
action adds or deletes.
-/

namespace FinitePlanning
namespace FiniteDomain

namespace Dictionary

variable {d : Dictionary} {sets sets' : ValueSets} {literals : List Literal}

/-- Atoms are values that exist. -/
def HasValues (d : Dictionary) : Prop := ∀ a, ∀ f ∈ d.facts a, f.value < d.range f.var

theorem hasValues_ofGroups (groups : List (List Atom)) : (ofGroups groups).HasValues :=
  fun _ _ hf => (lt_of_mem_facts hf).2

/-- A fact with which one of the facts of a literal is as the literal says. -/
def Allows (d : Dictionary) (l : Literal) (g : Fact) : Prop :=
  g.value < d.range g.var ∧
    ∃ f ∈ d.facts l.atom, f.var = g.var ∧ (g.value = f.value ↔ l.negated = false)

/-- All facts that are left in value sets. -/
def Leaves (P : Fact → Prop) (sets : ValueSets) : Prop := ∀ p ∈ sets, ∀ x ∈ p.2, P ⟨p.1, x⟩

variable {P : Fact → Prop}

theorem Leaves.require (h : Leaves P sets) {f : Fact} (hf : P f)
    (hr : sets.require f = some sets') : Leaves P sets' := by
  rw [ValueSets.require] at hr
  split at hr
  next =>
    obtain rfl := Option.some.inj hr
    intro p hp x hx
    rcases List.mem_append.mp hp with hp | hp
    · exact h p hp x hx
    · obtain rfl := List.mem_singleton.mp hp
      obtain rfl := List.mem_singleton.mp hx
      exact hf
  next =>
    split at hr
    · exact Option.some.inj hr ▸ h
    · cases hr

theorem Leaves.exclude (h : Leaves P sets) {f : Fact} (hr : sets.exclude f = some sets') :
    Leaves P sets' := by
  obtain ⟨-, rfl⟩ := ValueSets.exclude_eq_some_iff.mp hr
  exact List.forall_mem_map.mpr fun p hp x hx => h p hp x (ValueSets.mem_otherValues.mp hx).1

theorem Leaves.foldlM {α : Type} {step : ValueSets → α → Option ValueSets} {as : List α}
    (h : Leaves P sets) (hstep : ∀ a ∈ as, ∀ s s', Leaves P s → step s a = some s' → Leaves P s')
    (hr : as.foldlM step sets = some sets') : Leaves P sets' := by
  induction as generalizing sets with
  | nil => exact Option.some.inj hr ▸ h
  | cons a as ih =>
      rw [List.forall_mem_cons] at hstep
      rw [List.foldlM_cons] at hr
      obtain ⟨next, hnext, hr⟩ := Option.bind_eq_some_iff.mp hr
      exact ih (hstep.1 sets next h hnext) hstep.2 hr

theorem Leaves.excludeAtom (h : Leaves P sets) {a : Atom}
    (ha : ∀ f ∈ d.facts a, ∀ x < d.range f.var, x ≠ f.value → P ⟨f.var, x⟩)
    (hr : d.excludeAtom sets a = some sets') : Leaves P sets' := by
  rw [Dictionary.excludeAtom] at hr
  split at hr
  next =>
    split at hr
    next => exact Option.some.inj hr ▸ h
    next f hmin =>
      obtain rfl := Option.some.inj hr
      intro p hp x hx
      rcases List.mem_append.mp hp with hp | hp
      · exact h p hp x hx
      · obtain rfl := List.mem_singleton.mp hp
        rw [List.mem_filter, List.mem_range, decide_eq_true_eq] at hx
        exact ha f (List.minOn?_mem hmin) x hx.1 hx.2
  next => exact h.foldlM (fun f _ _ _ hs he => hs.exclude he) hr

/-- What is left is allowed by one of the literals. -/
theorem leaves_restrict (hd : d.HasValues) (h : d.restrict literals = some sets) :
    Leaves (fun g => ∃ l ∈ literals, d.Allows l g) sets := by
  rw [restrict] at h
  obtain ⟨positive, hpositive, hnegative⟩ := Option.bind_eq_some_iff.mp h
  have hempty : Leaves (fun g => ∃ l ∈ literals, d.Allows l g) [] := List.forall_mem_nil _
  refine Leaves.foldlM (hempty.foldlM (fun a ha s s' hs hr => ?_) hpositive)
    (fun a ha s s' hs hr => ?_) hnegative
  · obtain ⟨l, hl, rfl⟩ := List.mem_map.mp ha
    obtain ⟨hl, hneg⟩ := List.mem_filter.mp hl
    refine hs.foldlM (fun f hf _ _ ht he =>
      ht.require ⟨l, hl, hd l.atom f hf, f, hf, rfl, ?_⟩ he) hr
    exact iff_of_true rfl (by simpa using hneg)
  · obtain ⟨l, hl, rfl⟩ := List.mem_map.mp ha
    obtain ⟨hl, hneg⟩ := List.mem_filter.mp hl
    refine hs.excludeAtom (fun f hf x hx hne => ⟨l, hl, hx, f, hf, rfl, ?_⟩) hr
    exact iff_of_false hne (by simp [hneg])

theorem of_mem_assignments {a : Assignment} {g : Fact} (h : Leaves P sets)
    (ha : a ∈ sets.assignments) (hg : g ∈ a) : P g := by
  obtain ⟨c, hc, rfl⟩ := List.mem_map.mp ha
  obtain ⟨l, hl, hgl⟩ := exists_of_mem_forall₂ (mem_choices.mp hc) (List.mem_mergeSort.mp hg)
  obtain ⟨p, hp, rfl⟩ := List.mem_map.mp hl
  obtain ⟨x, hx, rfl⟩ := List.mem_map.mp hgl
  exact h p (List.mem_mergeSort.mp hp) x hx

theorem allows_of_mem_assignments {as : List Assignment} {a : Assignment} {g : Fact}
    (hd : d.HasValues) (h : d.assignments? literals = some as) (ha : a ∈ as) (hg : g ∈ a) :
    ∃ l ∈ literals, d.Allows l g := by
  obtain ⟨sets, hsets, rfl⟩ := Option.map_eq_some_iff.mp h
  exact of_mem_assignments (leaves_restrict hd hsets) ha hg

end Dictionary

namespace Encoder

variable {e : Encoder} {a : Assignment} {f g : Fact}

/-- A fact about a value that exists. -/
def HasFact (e : Encoder) (f : Fact) : Prop := f.value < e.dictionary.range f.var

theorem hasFact_of_mem_assignments {literals : List Literal} {as : List Assignment}
    (he : e.dictionary.HasValues) (h : e.assignments? literals = some as) (ha : a ∈ as)
    (hg : g ∈ a) : e.HasFact g := by
  obtain ⟨l, -, hl⟩ := Dictionary.allows_of_mem_assignments he (dictionary_of_assignments h) ha hg
  exact hl.1

theorem hasFact_of_mem_negation {conditions : List (List Literal)} (he : e.dictionary.HasValues)
    (ha : a ∈ e.negation conditions) (hg : g ∈ a) : e.HasFact g := by
  obtain ⟨literals, -, as, has, ha⟩ := mem_negation.mp ha
  exact hasFact_of_mem_assignments he has ha hg

theorem mem_of_mem_foldl_assign {b : Assignment}
    (h : g ∈ b.foldl (fun a f => Assignment.assign f a) a) : g ∈ a ∨ g ∈ b := by
  induction b generalizing a with
  | nil => exact .inl h
  | cons f b ih =>
      rcases ih h with h | h
      · exact (Assignment.mem_of_mem_assign h).elim (fun h => .inr (h ▸ List.mem_cons_self)) .inl
      · exact .inr (List.mem_cons_of_mem f h)

theorem of_mem_deletionCases {noAdd : List Assignment} {c : Assignment}
    (h : c ∈ deletionCases noAdd f a) (hg : g ∈ c) : g ∈ a ∨ g = f ∨ ∃ b ∈ noAdd, g ∈ b := by
  rw [deletionCases] at h
  split at h
  · cases h
  · obtain ⟨b, hb, hc⟩ := List.mem_filterMap.mp h
    rw [Assignment.union?] at hc
    split at hc
    · cases hc
    · obtain rfl := Option.some.inj hc
      rcases mem_of_mem_foldl_assign hg with hg | hg
      · exact (Assignment.mem_of_mem_assign hg).elim (fun h => .inr (.inl h)) .inl
      · exact .inr (.inr ⟨b, hb, hg⟩)

/-- An effect is on a variable of an atom that is added or deleted, and about values that exist. -/
structure EffectFits (e : Encoder) (x : GroundAction) (f : Fact) (a : Assignment) : Prop where
  valid : e.HasFact f
  origin : ∃ y ∈ x.adds ++ x.deletes, ∃ g ∈ e.dictionary.facts y.atom, g.var = f.var
  condition : ∀ g ∈ a, e.HasFact g

theorem effectFits_of_hasCase {x : GroundAction} (he : e.dictionary.HasValues)
    (h : (e.effectTable x).HasCase f a) : e.EffectFits x f a := by
  rw [effectTable, EffectTable.hasCase_ofEntries, EffectTable.hasCase_append] at h
  rcases h with h | h
  · obtain ⟨y, hy, as, has, hf, ha⟩ := hasCase_entries.mp h
    exact ⟨he y.atom f hf, ⟨y, List.mem_append_left _ hy, f, hf, rfl⟩,
      fun g hg => hasFact_of_mem_assignments he has ha hg⟩
  · obtain ⟨p, hp, b, hb, hc, rfl⟩ := hasCase_deletions.mp h
    have hcase : (EffectTable.ofEntries (entries (x.deletes.filterMap e.effect?))).HasCase p.1 b :=
      ⟨p.2, hp, hb⟩
    obtain ⟨y, hy, as, has, hf, hbs⟩ := hasCase_entries.mp (EffectTable.hasCase_ofEntries.mp hcase)
    have hvalid : e.HasFact p.1 := he y.atom p.1 hf
    refine ⟨Nat.sub_lt (Nat.zero_lt_of_lt hvalid) Nat.one_pos,
      ⟨y, List.mem_append_right _ hy, p.1, hf, rfl⟩, fun g hg => ?_⟩
    rcases of_mem_deletionCases hc hg with hg | rfl | ⟨b, hb, hg⟩
    · exact hasFact_of_mem_assignments he has hbs hg
    · exact hvalid
    · exact hasFact_of_mem_negation he hb hg

/-- A simplified condition is a part of the condition that was there. -/
theorem exists_hasCase_of_simplifyBinary {t : EffectTable}
    (h : EffectTable.HasCase (e.simplifyBinary t) f a) : ∃ b, t.HasCase f b ∧ a ⊆ b := by
  obtain ⟨as, hmem, ha⟩ := h
  obtain ⟨bs, hbs, rfl⟩ := exists_mem_simplifyBinary.mp hmem
  split at ha
  · rw [dropOtherValue] at ha
    split at ha
    next hempty =>
      obtain rfl := List.mem_singleton.mp ha
      obtain ⟨c, hc, -⟩ := List.any_eq_true.mp hempty
      obtain ⟨b, hb, -⟩ := List.mem_map.mp hc
      exact ⟨b, ⟨bs, hbs, hb⟩, List.nil_subset b⟩
    next =>
      obtain ⟨b, hb, rfl⟩ := List.mem_map.mp ha
      exact ⟨b, ⟨bs, hbs, hb⟩, fun g hg => List.mem_of_mem_filter hg⟩
  · exact ⟨a, ⟨bs, hbs, ha⟩, fun _ => id⟩

end Encoder

namespace ActionEncoding

variable {e : Encoder} {a : GroundAction} {x : ActionEncoding} {o : Operator}

/-- An operator mentions values that exist, and sets variables of atoms that its action adds or
deletes. -/
structure OperatorFits (e : Encoder) (a : GroundAction) (o : Operator) : Prop where
  prevail : ∀ f ∈ o.prevail, e.HasFact f
  before : ∀ d ∈ o.effects, ∀ f ∈ d.beforeFact?, e.HasFact f
  effects : ∀ d ∈ o.effects, e.EffectFits a d.afterFact d.condition

theorem operatorFits_of_mem_operators (he : e.dictionary.HasValues)
    (hx : ofAction e a = some x) (ho : o ∈ x.operators) : OperatorFits e a o := by
  obtain ⟨ps, hps, rfl⟩ := Option.map_eq_some_iff.mp hx
  obtain ⟨p, hp, ho⟩ := List.mem_filterMap.mp ho
  obtain ⟨-, rfl⟩ := operator_eq_some ho
  have hvalid : ∀ f ∈ p, e.HasFact f := fun f hf => Encoder.hasFact_of_mem_assignments he hps hp hf
  have heffect : ∀ d ∈ (e.simplifyBinary (e.effectTable a)).flatMap (effectsOn p),
      (∀ f ∈ d.beforeFact?, e.HasFact f) ∧ e.EffectFits a d.afterFact d.condition := by
    intro d hd
    obtain ⟨⟨f, as⟩, hentry, hd⟩ := List.mem_flatMap.mp hd
    obtain ⟨-, c, hc, rest, hrest, rfl⟩ := mem_effectsOn.mp hd
    obtain ⟨b, hb, hsub⟩ := Encoder.exists_hasCase_of_simplifyBinary ⟨as, hentry, hc⟩
    obtain ⟨hfact, horigin, hcondition⟩ := Encoder.effectFits_of_hasCase he hb
    refine ⟨fun g hg => ?_, hfact, horigin, fun g hg => hcondition g (hsub ?_)⟩
    · obtain ⟨value, hvalue, rfl⟩ := Option.map_eq_some_iff.mp hg
      exact hvalid _ (Assignment.value?_eq_some hvalue)
    · rw [Assignment.residual?] at hrest
      split at hrest
      · cases hrest
      · exact List.mem_of_mem_filter (Option.some.inj hrest ▸ hg)
  refine ⟨fun f hf => hvalid f (List.mem_of_mem_filter (mem_orderedSet.mp hf)), ?_, ?_⟩
  · intro d hd
    obtain ⟨d, hd', rfl⟩ := List.mem_map.mp (mem_orderedSet.mp hd)
    exact (heffect d hd').1
  · intro d hd
    obtain ⟨d, hd', rfl⟩ := List.mem_map.mp (mem_orderedSet.mp hd)
    obtain ⟨hfact, horigin, hcondition⟩ := (heffect d hd').2
    exact ⟨hfact, horigin, fun g hg => hcondition g (mem_orderedSet.mp hg)⟩

end ActionEncoding
end FiniteDomain
end FinitePlanning
