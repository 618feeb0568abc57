import FinitePlanning.Proofs.Encoding.Operator

/-!
The operators of a ground action simulate it: if the action is applicable in a
state, at most one of them is applicable in the valuation of the state, it leads
to the valuation of the next state, and if there is none the valuation stays the
same. If the action is not applicable neither is any of them.
-/

namespace FinitePlanning
namespace FiniteDomain

open EffectTable Encoder

/-- The encoder of two lists of groups, those that become variables and all
exclusive ones. -/
abbrev encoderOf (groups mutexGroups : List (List Atom)) : Encoder :=
  ⟨.ofGroups groups, .ofGroups mutexGroups⟩

theorem hasAlternatives_encoderOf (groups mutexGroups : List (List Atom)) :
    (encoderOf groups mutexGroups).HasAlternatives :=
  ⟨Dictionary.hasAlternatives_ofGroups groups, Dictionary.hasAlternatives_ofGroups mutexGroups⟩

variable {groups mutexGroups : List (List Atom)} {s : Interpretation}

/-- In a state no two atoms of a group are true. -/
structure ExclusiveIn (groups mutexGroups : List (List Atom)) (s : Interpretation) : Prop where
  groups : Exclusive groups s
  mutexGroups : Exclusive mutexGroups s

structure NodupGroups (groups mutexGroups : List (List Atom)) : Prop where
  groups : ∀ g ∈ groups, g.Nodup
  mutexGroups : ∀ g ∈ mutexGroups, g.Nodup

theorem shows_encoderOf (hn : NodupGroups groups mutexGroups)
    (hs : ExclusiveIn groups mutexGroups s) :
    (encoderOf groups mutexGroups).Shows (encodeState groups s) s :=
  ⟨Dictionary.shows_encodeState hn.groups hs.groups,
    _, Dictionary.shows_encodeState hn.mutexGroups hs.mutexGroups⟩

theorem encodeState_lt_range {var : Nat} (h : var < groups.length) :
    encodeState groups s var < (Dictionary.ofGroups groups).range var := by
  have hg : groups[var]? = some groups[var] := List.getElem?_eq_getElem h
  rw [Dictionary.range_ofGroups hg]
  simpa [encodeState, hg] using Nat.lt_succ_of_le groupValue_le

/-- The table mentions values of variables only. -/
theorem value_lt_range_of_mem_effectTable {a : GroundAction} {f : Fact} {as : List Assignment}
    (h : (f, as) ∈ (encoderOf groups mutexGroups).effectTable a) :
    f.var < groups.length ∧ f.value < (Dictionary.ofGroups groups).range f.var := by
  rcases fact_of_mem_effectTable h with ⟨x, -, hf⟩ | ⟨x, -, g, hg, rfl⟩
  · exact Dictionary.lt_of_mem_facts hf
  · obtain ⟨hvar, hvalue⟩ := Dictionary.lt_of_mem_facts hg
    exact ⟨hvar, Nat.sub_lt (Nat.zero_lt_of_lt hvalue) Nat.one_pos⟩

section Action

variable {a : GroundAction} (hn : NodupGroups groups mutexGroups)
  (hs : ExclusiveIn groups mutexGroups s)
  (ha : (encoderOf groups mutexGroups).CoversAction a)
include hn hs ha

/-- What the table sets is the value in the next state. -/
theorem encodeState_successor_of_sets (hs' : Exclusive groups (a.successor s)) {f : Fact}
    (h : ((encoderOf groups mutexGroups).effectTable a).Sets (encodeState groups s) f) :
    f.Holds (encodeState groups (a.successor s)) := by
  have hshow := shows_encoderOf hn hs
  rcases (sets_effectTable (hasAlternatives_encoderOf _ _) hshow ha).mp h with
    ⟨x, hx, hall, hf⟩ | ⟨f, ⟨x, hx, hall, hf⟩, hfσ, hno, rfl⟩
  · have hshow' := Dictionary.shows_encodeState hn.groups hs'
    exact (hshow'.holds_iff x.atom f hf).mpr (.inl ⟨x, hx, hall, rfl⟩)
  · have htrue := (hshow.dictionary.holds_iff x.atom f hf).mp hfσ
    obtain ⟨g, hg, hgx⟩ := Dictionary.mem_facts.mp hf
    have hmem := List.mem_of_getElem? hg
    have hnone : ∀ b ∈ g, b ∉ a.successor s := by
      rintro b hb (⟨y, hy, hyall, rfl⟩ | ⟨hbs, hkeep⟩)
      · obtain ⟨i, hi⟩ := List.getElem?_of_mem hb
        exact hno y hy ⟨⟨f.var, i⟩, Dictionary.mem_facts.mpr ⟨g, hg, hi⟩, rfl⟩ hyall
      · have hbx := hs.groups g hmem b hb x.atom (List.mem_of_getElem? hgx) hbs htrue
        exact hkeep ⟨x, hx, hall, hbx.symm⟩
    have hvalue := groupValue_eq_length.mpr hnone
    simpa [Fact.Holds, encodeState, hg, Dictionary.noneOfThose, Dictionary.range_ofGroups hg]
      using hvalue

/-- The table sets every value that changes. -/
theorem sets_of_encodeState_successor_ne {var : Nat}
    (h : encodeState groups (a.successor s) var ≠ encodeState groups s var) :
    ((encoderOf groups mutexGroups).effectTable a).Sets (encodeState groups s)
      ⟨var, encodeState groups (a.successor s) var⟩ := by
  have hshow := shows_encoderOf hn hs
  refine (sets_effectTable (hasAlternatives_encoderOf _ _) hshow ha).mpr ?_
  cases hg : groups[var]? with
  | none => simp [encodeState, hg, groupValue] at h
  | some g =>
      have hmem := List.mem_of_getElem? hg
      have hvar : ∀ t, encodeState groups t var = groupValue t g := fun t => by
        simp [encodeState, hg]
      rw [hvar, hvar] at h
      rw [hvar]
      have hfact : ∀ {b : Atom} {i : Nat}, g[i]? = some b →
          (⟨var, i⟩ : Fact) ∈ (Dictionary.ofGroups groups).facts b :=
        fun hi => Dictionary.mem_facts.mpr ⟨g, hg, hi⟩
      by_cases hall : ∀ b ∈ g, b ∉ a.successor s
      · right
        have hlen := groupValue_eq_length.mpr hall
        have hsome : ∃ c ∈ g, c ∈ s := by
          by_contra hno
          push Not at hno
          exact h (hlen.trans (groupValue_eq_length.mpr hno).symm)
        obtain ⟨c, hc, hcs⟩ := hsome
        obtain ⟨i, hi⟩ := List.getElem?_of_mem hc
        have hdeleted : c ∈ GroundAction.triggered a.deletes s := by
          by_contra hkeep
          exact hall c hc (.inr ⟨hcs, hkeep⟩)
        obtain ⟨x, hx, hxall, rfl⟩ := hdeleted
        refine ⟨⟨var, i⟩, ⟨x, hx, hxall, hfact hi⟩,
          (hshow.dictionary.holds_iff _ _ (hfact hi)).mpr hcs, ?_, ?_⟩
        · rintro y hy ⟨f, hf, rfl⟩ hyall
          obtain ⟨g', hg', hyg⟩ := Dictionary.mem_facts.mp hf
          obtain rfl : g = g' := Option.some.inj (hg.symm.trans hg')
          exact hall y.atom (List.mem_of_getElem? hyg) (.inl ⟨y, hy, hyall, rfl⟩)
        · rw [hlen, Dictionary.noneOfThose, Dictionary.range_ofGroups hg]
          rfl
      · left
        have hlt : groupValue (a.successor s) g < g.length := by
          refine Nat.lt_of_le_of_ne groupValue_le fun he => hall ?_
          exact groupValue_eq_length.mp he
        have hget : g[groupValue (a.successor s) g]? =
            some g[groupValue (a.successor s) g] := List.getElem?_eq_getElem hlt
        have htrue := getElem_groupValue_mem hlt
        rcases htrue with ⟨x, hx, hxall, he⟩ | ⟨hold, -⟩
        · exact ⟨x, hx, hxall, he ▸ hfact hget⟩
        · exact absurd ((groupValue_eq (hn.groups g hmem) (hs.groups g hmem) hget).mpr hold).symm h

/-- The simplified table sets nothing that differs from the next state. -/
theorem encodeState_successor_of_sets_simplified (hs' : Exclusive groups (a.successor s))
    {f : Fact} (h : ((encoderOf groups mutexGroups).simplifyBinary
      ((encoderOf groups mutexGroups).effectTable a)).Sets (encodeState groups s) f) :
    f.Holds (encodeState groups (a.successor s)) := by
  obtain ⟨c, ⟨as, hmem, hc⟩, hσ⟩ := h
  obtain ⟨bs, hbs, has⟩ := exists_mem_simplifyBinary.mp hmem
  obtain ⟨hvar, hvalue⟩ := value_lt_range_of_mem_effectTable hbs
  rcases sets_of_sets_simplifyBinary (encodeState_lt_range hvar) hvalue
    ⟨c, ⟨as, hmem, hc⟩, hσ⟩ with h | ⟨hf, hrange, hmention⟩
  · exact encodeState_successor_of_sets hn hs ha hs' h
  · by_contra hne
    have hdiff : encodeState groups (a.successor s) f.var ≠ encodeState groups s f.var :=
      fun he => hne (he.trans hf)
    have hset := sets_of_encodeState_successor_ne hn hs ha hdiff
    have hother : encodeState groups (a.successor s) f.var = 1 - f.value := by
      have hlt := encodeState_lt_range (s := a.successor s) hvar
      unfold Fact.Holds at hne
      rw [hrange] at hlt hvalue
      omega
    obtain ⟨d, hd, -⟩ := hset
    rw [hother] at hd
    rw [mentions_of_hasCase hd] at hmention
    cases hmention

/-- Of the operators of an action that is applicable at most one is, and it leads
to the valuation of the next state. -/
theorem operators_of_applicable (hs' : Exclusive groups (a.successor s))
    {x : ActionEncoding} (hx : ActionEncoding.ofAction (encoderOf groups mutexGroups) a = some x)
    (happ : a.Applicable s) :
    (∃ o, x.operators.filter (fun o => decide (o.Applicable (encodeState groups s))) = [o] ∧
      o.apply (encodeState groups s) = encodeState groups (a.successor s)) ∨
    (x.operators.filter (fun o => decide (o.Applicable (encodeState groups s))) = [] ∧
      encodeState groups (a.successor s) = encodeState groups s) := by
  have he := hasAlternatives_encoderOf groups mutexGroups
  have hshow := shows_encoderOf hn hs
  obtain ⟨ps, hps, rfl⟩ := Option.map_eq_some_iff.mp hx
  obtain ⟨p, hp⟩ := Dictionary.filter_assignments_eq_singleton he.dictionary
    (dictionary_of_assignments hps) hshow.dictionary happ
  have hpmem : p ∈ ps ∧ FactsHold (encodeState groups s) p := by
    have hmem : p ∈ ps.filter fun p => decide (FactsHold (encodeState groups s) p) :=
      hp ▸ List.mem_singleton_self p
    rwa [List.mem_filter, decide_eq_true_eq] at hmem
  have hfilter : ∀ y : ActionEncoding, y.preconditions = ps →
      y.operators.filter (fun o => decide (o.Applicable (encodeState groups s))) =
        (y.operator? p).toList := by
    rintro y rfl
    rw [ActionEncoding.filter_operators fun q hq => nodup_vars he hps hq, hp]
    cases ho : y.operator? p <;> simp [ho]
  have hagree : ∀ f, ((encoderOf groups mutexGroups).simplifyBinary
      ((encoderOf groups mutexGroups).effectTable a)).Sets (encodeState groups s) f →
      f.Holds (encodeState groups (a.successor s)) :=
    fun f => encodeState_successor_of_sets_simplified hn hs ha hs'
  have hset : ∀ v, encodeState groups (a.successor s) v ≠ encodeState groups s v →
      ((encoderOf groups mutexGroups).simplifyBinary
        ((encoderOf groups mutexGroups).effectTable a)).Sets (encodeState groups s)
          ⟨v, encodeState groups (a.successor s) v⟩ :=
    fun v hv => sets_simplifyBinary (sets_of_encodeState_successor_ne hn hs ha hv)
  rw [hfilter _ rfl]
  cases ho : ActionEncoding.operator? _ p with
  | none => exact .inr ⟨rfl, ActionEncoding.eq_of_operator_eq_none hpmem.2 hset ho⟩
  | some o => exact .inl ⟨o, rfl, ActionEncoding.apply_eq hpmem.2 hagree hset ho⟩

/-- An operator that is applicable sets values of the next state only. -/
theorem holds_successor_of_sets (hs' : Exclusive groups (a.successor s)) {x : ActionEncoding}
    (hx : ActionEncoding.ofAction (encoderOf groups mutexGroups) a = some x) {o : Operator}
    (ho : o ∈ x.operators) (happ : o.Applicable (encodeState groups s)) {f : Fact}
    (h : o.Sets (encodeState groups s) f) : f.Holds (encodeState groups (a.successor s)) := by
  obtain ⟨ps, hps, rfl⟩ := Option.map_eq_some_iff.mp hx
  obtain ⟨p, hp, ho⟩ := List.mem_filterMap.mp ho
  have hσ := (ActionEncoding.applicable_iff
    (nodup_vars (hasAlternatives_encoderOf groups mutexGroups) hps hp) ho).mp happ
  obtain ⟨-, rfl⟩ := ActionEncoding.operator_eq_some ho
  obtain ⟨d, hd, hc, rfl⟩ := Operator.sets_ofParts.mp h
  exact encodeState_successor_of_sets_simplified hn hs ha hs'
    (ActionEncoding.sets_of_mem_effects hσ hd hc)

/-- No operator of an action that is not applicable is applicable. -/
theorem not_applicable_of_mem_operators
    {x : ActionEncoding} (hx : ActionEncoding.ofAction (encoderOf groups mutexGroups) a = some x)
    (happ : ¬ a.Applicable s) {o : Operator} (ho : o ∈ x.operators) :
    ¬ o.Applicable (encodeState groups s) := by
  have he := hasAlternatives_encoderOf groups mutexGroups
  have hshow := shows_encoderOf hn hs
  obtain ⟨ps, hps, rfl⟩ := Option.map_eq_some_iff.mp hx
  obtain ⟨p, hp, ho⟩ := List.mem_filterMap.mp ho
  rw [ActionEncoding.applicable_iff (nodup_vars he hps hp) ho]
  exact fun hσ => happ (allHold_of_factsHold he hshow ha.precondition hps hp hσ)

end Action
end FiniteDomain
end FinitePlanning
