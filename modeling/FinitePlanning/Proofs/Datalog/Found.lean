import FinitePlanning.Proofs.Datalog.Model

/-!
What the search for a model finds even if conditions repeat variables. All atoms are built from
the relations and objects of the program, so that the search still ends by itself, and rules with a
single condition without objects hold among them.
-/

namespace FinitePlanning
namespace Datalog

variable {p : Program} {arity : RelationId → Nat} {a : GroundAtom}

namespace Program

/-- An atom that can be built from the relations and objects of a program. -/
structure Admits (p : Program) (arity : RelationId → Nat) (a : GroundAtom) : Prop where
  arities : (a.relation, a.args.length) ∈ p.arities
  arity : a.args.length = arity a.relation
  relation : a.relation.index < p.symbols.relations.length
  objects : ∀ o ∈ a.args, o.index < p.symbols.objects.length

/-- Arguments that an atom may have that is matched with a condition. -/
structure Fits (p : Program) (q : Pattern) (args : List ObjectId) : Prop where
  length : args.length = q.args.length
  objects : ∀ o ∈ args, o.index < p.symbols.objects.length

theorem IsTyped.admits_fact (h : p.IsTyped arity) (ha : a ∈ p.facts) : p.Admits arity a where
  arities := List.mem_append_left _ (List.mem_map_of_mem (f := fun a : GroundAtom =>
    (a.relation, a.args.length)) ha)
  arity := h.fact_arity a ha
  relation := h.fact_relation a ha
  objects := h.fact_objects a ha

theorem IsTyped.admits_instantiate (h : p.IsTyped arity) {r : SplitRule} (hr : r ∈ p.rules)
    {values : List (String × ObjectId)} (hbound : ∀ v ∈ r.head.vars, v ∈ values.map (·.1))
    (hvalues : ∀ b ∈ values, b.2.index < p.symbols.objects.length) :
    p.Admits arity (r.head.instantiate values) where
  arities := by
    rw [Pattern.instantiate, List.length_map]
    exact List.mem_append_right _ (List.mem_map_of_mem (f := fun r : SplitRule =>
      (r.head.relation, r.head.args.length)) hr)
  arity := by
    rw [Pattern.instantiate, List.length_map]
    exact h.rule_arity r hr _ List.mem_cons_self
  relation := h.head_relation r hr
  objects o ho := by
    obtain ⟨term, hterm, rfl⟩ := List.mem_map.mp ho
    cases term with
    | object id => exact h.rule_objects r hr id hterm
    | «variable» v =>
        cases hl : values.lookup v with
        | none =>
            exact absurd (hbound v (Pattern.mem_vars.mpr hterm)) (lookup_eq_none_iff_not_mem.mp hl)
        | some id =>
            simp only [hl, Option.getD_some]
            exact hvalues _ (mem_of_lookup hl)

theorem IsTyped.fits (h : p.IsTyped arity) {e : ConditionRef} {q : Pattern}
    (he : p.HasCondition e q) (hq : q.relation = a.relation) (ha : p.Admits arity a) :
    p.Fits q a.args := by
  obtain ⟨r, hr, hqr⟩ := he
  refine ⟨?_, ha.objects⟩
  rw [ha.arity, h.rule_arity r (List.mem_of_getElem? hr) q
    (List.mem_cons_of_mem _ (List.mem_of_getElem? hqr)), hq]

end Program

namespace ActiveRule

variable {r : ActiveRule} {c : Nat} {args : List ObjectId} {own : Pattern}

/-- What a rule recorded fits its conditions. -/
structure Fits (p : Program) (r : ActiveRule) : Prop where
  length : r.seen.length = r.rule.body.length
  recorded : ∀ q ∈ r.rule.body.zip r.seen, ∀ args ∈ q.2, p.Fits q.1 args

theorem fits_start (rule : SplitRule) : (start rule).Fits p where
  length := List.length_map _
  recorded q hq args hargs := by
    obtain ⟨-, -, hempty⟩ := List.mem_map.mp (List.of_mem_zip hq).2
    rw [← hempty] at hargs
    exact absurd hargs (Array.not_mem_empty _)

theorem Fits.record (h : r.Fits p) (hc : r.rule.body[c]? = some own) (hargs : p.Fits own args) :
    (r.record c args).Fits p where
  length := (List.length_modify _ _ _).trans h.length
  recorded q hq args' hargs' := by
    obtain ⟨seen, hq, hseen⟩ := of_mem_zip_record (r := r) hq
    rcases hseen args' hargs' with hargs' | ⟨rfl, hown⟩
    · exact h.recorded _ hq _ hargs'
    · obtain rfl := Option.some.inj (hc.symm.trans hown)
      exact hargs

/-- The heads that follow can be built from the relations and objects of the program. -/
theorem Fits.admits_of_mem_consequences (h : r.Fits p) (ht : p.IsTyped arity)
    (hr : r.rule ∈ p.rules) (hguarded : r.rule.IsGuarded) (hc : r.rule.body[c]? = some own)
    (hargs : p.Fits own args) (ha : a ∈ r.consequences c args) : p.Admits arity a := by
  obtain ⟨choice, hchoice, rfl⟩ := List.mem_map.mp ha
  have hget : r.rule.body.getD c default = own := by
    rw [List.getD_eq_getElem?_getD, hc]
    rfl
  have hchoice := List.forall₂_map_right_iff.mp (mem_choices.mp hchoice)
  have hrecorded : ∀ (bs : List (String × ObjectId)) (q : Pattern × Array (List ObjectId)),
      q ∈ r.others c → (bs ∈ (q.2.toList.filter ((r.rule.body.getD c default).agree args q.1 ·)).map
        q.1.bindings) → ∃ args', p.Fits q.1 args' ∧ bs = q.1.bindings args' := by
    intro bs q hq hbs
    obtain ⟨args', hargs', rfl⟩ := List.mem_map.mp hbs
    exact ⟨args', h.recorded q (mem_zip_of_mem_others hq) args'
      (Array.mem_toList_iff.mp (List.mem_of_mem_filter hargs')), rfl⟩
  rw [hget]
  refine ht.admits_instantiate hr (fun v hv => ?_) fun b hb => ?_
  · obtain ⟨q, hq, hvq⟩ := hguarded.bound v hv
    rw [List.map_append, List.mem_append]
    rcases eq_or_mem_others (c := c) h.length hq with rfl | ⟨x, hx, rfl⟩
    · exact .inr ((Pattern.keys_bindings hargs.length).mpr (hget ▸ hvq))
    · obtain ⟨bs, hbs, hmem⟩ := exists_of_mem_forall₂_right hchoice hx
      obtain ⟨args', hfits, rfl⟩ := hrecorded bs x hx hmem
      obtain ⟨b, hb, rfl⟩ := List.mem_map.mp ((Pattern.keys_bindings hfits.length).mpr hvq)
      exact .inl (List.mem_map_of_mem (List.mem_flatten.mpr
        ⟨_, List.mem_reverse.mpr hbs, hb⟩))
  · rcases List.mem_append.mp hb with hb | hb
    · obtain ⟨bs, hbs, hb⟩ := List.mem_flatten.mp hb
      obtain ⟨q, hq, hmem⟩ := exists_of_mem_forall₂ hchoice (List.mem_reverse.mp hbs)
      obtain ⟨args', hfits, rfl⟩ := hrecorded bs q hq hmem
      exact hfits.objects _ (Pattern.snd_mem_of_mem_bindings hb)
    · exact hargs.objects _ (Pattern.snd_mem_of_mem_bindings hb)

/-- The head of a rule with a single condition follows from each atom that is matched with it. -/
theorem mem_consequences_single (h : r.Fits p) (hbody : r.rule.body = [own]) :
    r.rule.head.instantiate (own.bindings args) ∈ r.consequences 0 args := by
  have hlen := h.length
  rw [hbody] at hlen
  obtain ⟨seen, hseen⟩ := List.length_eq_one_iff.mp hlen
  simp [consequences, hbody, hseen, choices]

end ActiveRule

namespace ActiveSearch

variable {s : ActiveSearch} {rules : Array ActiveRule} {e : ConditionRef} {q : Pattern}

/-- The rules of a program with what they recorded. -/
structure RulesFit (p : Program) (rules : Array ActiveRule) : Prop where
  rule : ∀ i : Nat, (rules[i]?).map ActiveRule.rule = p.rules[i]?
  fits : ∀ (i : Nat) (r : ActiveRule), rules[i]? = some r → r.Fits p

theorem rulesFit_start : RulesFit p (p.rules.map ActiveRule.start).toArray where
  rule i := by
    rw [List.getElem?_toArray, List.getElem?_map, Option.map_map]
    exact Option.map_id'
  fits i r hr := by
    rw [List.getElem?_toArray, List.getElem?_map] at hr
    obtain ⟨rule, -, rfl⟩ := Option.map_eq_some_iff.mp hr
    exact ActiveRule.fits_start rule

theorem RulesFit.exists_rule (h : RulesFit p rules) (he : p.HasCondition e q) :
    ∃ r, rules[e.rule]? = some r ∧ p.rules[e.rule]? = some r.rule ∧
      r.rule.body[e.condition]? = some q := by
  obtain ⟨rule, hrule, hq⟩ := he
  obtain ⟨r, hr, rfl⟩ := Option.map_eq_some_iff.mp ((h.rule e.rule).trans hrule)
  exact ⟨r, hr, hrule, hq⟩

theorem RulesFit.fire (h : RulesFit p rules) (ht : p.IsTyped arity) (he : p.HasCondition e q)
    (hq : q.relation = a.relation) (ha : p.Admits arity a) :
    RulesFit p (ActiveSearch.fire rules a.args e).2 := by
  refine ⟨fun i => ?_, fun i r hr => ?_⟩
  · rw [getElem?_fire, ← h.rule i, Option.map_map]
    refine congrArg (Option.map · _) (funext fun r => ?_)
    by_cases hi : e.rule = i <;> simp [hi, ActiveRule.record]
  · rw [getElem?_fire] at hr
    obtain ⟨old, hold, rfl⟩ := Option.map_eq_some_iff.mp hr
    by_cases hi : e.rule = i
    · subst hi
      obtain ⟨own, hown, -, hbody⟩ := h.exists_rule he
      obtain rfl := Option.some.inj (hown.symm.trans hold)
      rw [if_pos rfl]
      exact (h.fits _ _ hold).record hbody (ht.fits he hq ha)
    · rw [if_neg hi]
      exact h.fits i old hold

/-- What follows from an atom that is matched with a condition. -/
theorem RulesFit.found (h : RulesFit p rules) (ht : p.IsTyped arity)
    (hguarded : ∀ r ∈ p.rules, r.IsGuarded) (he : p.HasCondition e q)
    (hq : q.relation = a.relation) (ha : p.Admits arity a) :
    (∀ b ∈ (ActiveSearch.fire rules a.args e).1, p.Admits arity b) ∧
      ∀ r, p.rules[e.rule]? = some r → r.body = [q] →
        r.head.instantiate (q.bindings a.args) ∈ (ActiveSearch.fire rules a.args e).1 := by
  obtain ⟨r, hr, hrule, hbody⟩ := h.exists_rule he
  have hmem := List.mem_of_getElem? hrule
  rw [ActiveSearch.fire, getD_rules hr]
  refine ⟨fun b hb => (h.fits _ r hr).admits_of_mem_consequences ht hmem (hguarded _ hmem) hbody
    (ht.fits he hq ha) hb, fun r' hr' hsingle => ?_⟩
  obtain rfl := Option.some.inj (hrule.symm.trans hr')
  have hzero : e.condition = 0 := by
    have hlt := (List.getElem?_eq_some_iff.mp hbody).1
    rw [hsingle] at hlt
    exact Nat.lt_one_iff.mp hlt
  rw [hzero]
  exact ActiveRule.mem_consequences_single (h.fits _ r hr) hsingle

theorem RulesFit.foldl_fire {f : List GroundAtom × Array ActiveRule → ConditionRef →
      List GroundAtom × Array ActiveRule}
    (hf : ∀ acc c, f acc c =
      (acc.1 ++ (ActiveSearch.fire acc.2 a.args c).1, (ActiveSearch.fire acc.2 a.args c).2))
    (ht : p.IsTyped arity) (hguarded : ∀ r ∈ p.rules, r.IsGuarded) (ha : p.Admits arity a)
    (es : List ConditionRef)
    (hes : ∀ e ∈ es, ∃ q, p.HasCondition e q ∧ q.relation = a.relation)
    (acc : List GroundAtom × Array ActiveRule) (h : RulesFit p acc.2)
    (hacc : ∀ b ∈ acc.1, p.Admits arity b) :
    RulesFit p (es.foldl f acc).2 ∧ (∀ b ∈ (es.foldl f acc).1, p.Admits arity b) ∧
      (∀ b ∈ acc.1, b ∈ (es.foldl f acc).1) ∧
      ∀ e ∈ es, ∀ r q, p.rules[e.rule]? = some r → r.body = [q] → p.HasCondition e q →
        q.relation = a.relation → r.head.instantiate (q.bindings a.args) ∈ (es.foldl f acc).1 := by
  induction es generalizing acc with
  | nil => exact ⟨h, hacc, fun _ => id, fun e he => absurd he List.not_mem_nil⟩
  | cons e es ih =>
      rw [List.forall_mem_cons] at hes
      obtain ⟨⟨q, hq, hrelation⟩, hes⟩ := hes
      have hadmits := (h.found ht hguarded hq hrelation ha).1
      have hstep : f acc e =
        (acc.1 ++ (ActiveSearch.fire acc.2 a.args e).1, (ActiveSearch.fire acc.2 a.args e).2) := hf acc e
      obtain ⟨hfit, hall, hkept, hsingle⟩ := ih hes (f acc e)
        (hstep ▸ h.fire ht hq hrelation ha)
        (hstep ▸ fun b hb => (List.mem_append.mp hb).elim (hacc b) (hadmits b))
      rw [List.foldl_cons]
      refine ⟨hfit, hall, fun b hb => hkept b (hstep ▸ List.mem_append_left _ hb),
        List.forall_mem_cons.mpr ⟨fun r q hr hbody he hq => hkept _ ?_, hsingle⟩⟩
      rw [hstep]
      exact List.mem_append_right _ ((h.found ht hguarded he hq ha).2 r hr hbody)

/-- What holds while a program without unbound variables is searched. -/
structure IsClosing (p : Program) (arity : RelationId → Nat) (s : ActiveSearch) : Prop
    extends s.IsSet, RulesFit p s.rules where
  admits : ∀ b ∈ s.atoms.toList, p.Admits arity b
  /-- Rules with one condition were used with the atoms that were processed. -/
  projected : ∀ (i : Nat) b, i < s.next → s.atoms.toList[i]? = some b → ∀ r ∈ p.rules, ∀ q,
    r.body = [q] → q.relation = b.relation → q.constants = [] →
      r.head.instantiate (q.bindings b.args) ∈ s.atoms.toList
  next_le : s.next ≤ s.atoms.toList.length

theorem isClosing_start (ht : p.IsTyped arity) : IsClosing p arity (start p) := by
  obtain ⟨hset, -, hmem, hnext⟩ := Queue.isSet_foldl_push p.sortedFacts Queue.isSet_empty
  have hnext : (start p).next = 0 := hnext
  refine { hset, (rulesFit_start : RulesFit p (start p).rules) with
    admits := fun b hb => ht.admits_fact ?_
    projected := fun i b hi => absurd (hnext ▸ hi) (Nat.not_lt_zero i)
    next_le := hnext ▸ Nat.zero_le _ }
  rcases (hmem b).mp hb with hb | hb
  · simp at hb
  · exact (List.mem_mergeSort).mp hb

theorem isClosing_process (ht : p.IsTyped arity) (hguarded : ∀ r ∈ p.rules, r.IsGuarded)
    (h : IsClosing p arity s) (ha : s.atoms.toList[s.next]? = some a) :
    IsClosing p arity (process (selectors p) { s with next := s.next + 1 } a) ∧
      (process (selectors p) { s with next := s.next + 1 } a).next = s.next + 1 := by
  have hadmits := h.admits a (List.mem_of_getElem? ha)
  rw [process]
  generalize hentries : ((selectors p).getD a.relation.index (.leaf [])).select a.args = entries
  have hiff : ∀ e, e ∈ entries ↔
      ∃ q, p.HasCondition e q ∧ q.relation = a.relation ∧ Agrees a.args q.constants := fun e => by
    rw [← hentries]
    exact mem_select_selectors hadmits.relation
  obtain ⟨hfit, hall, -, hsingle⟩ := RulesFit.foldl_fire (fun _ _ => rfl) ht hguarded hadmits entries
    (fun e he => ((hiff e).mp he).imp fun _ hq => ⟨hq.1, hq.2.1⟩) ([], s.rules)
    h.toRulesFit (fun b hb => absurd hb List.not_mem_nil)
  revert hfit hall hsingle
  generalize entries.foldl _ ([], s.rules) = result
  intro hfit hall hsingle
  obtain ⟨hset, hprefix, hmem, hnext⟩ := Queue.isSet_foldl_push result.1
    (q := { s.toQueue with next := s.next + 1 }) ⟨h.known, h.nodup⟩
  have hlt := (List.getElem?_eq_some_iff.mp ha).1
  refine ⟨{
    hset, (show RulesFit p _ from hfit) with
    admits := fun b hb => ((hmem b).mp hb).elim (h.admits b) (hall b)
    projected := fun i b hi hb r hr q hbody hq hconstants => ?_
    next_le := by
      rw [hnext]
      exact Nat.lt_of_lt_of_le hlt hprefix.length_le }, hnext⟩
  rw [hnext] at hi
  have hb : s.atoms.toList[i]? = some b := by
    obtain ⟨rest, hrest⟩ := hprefix
    rw [← hb, ← hrest, List.getElem?_append_left (Nat.lt_of_lt_of_le hi hlt)]
  rcases Nat.lt_succ_iff_lt_or_eq.mp hi with hi | rfl
  · exact (hmem _).mpr (.inl (h.projected i b hi hb r hr q hbody hq hconstants))
  · obtain rfl := Option.some.inj (ha.symm.trans hb)
    obtain ⟨j, hj⟩ := List.mem_iff_getElem?.mp hr
    have he : p.HasCondition ⟨j, 0⟩ q := ⟨r, hj, by rw [hbody]; rfl⟩
    refine (hmem _).mpr (.inr (hsingle ⟨j, 0⟩ ((hiff _).mpr ⟨q, he, hq, ?_⟩) r q hj hbody he hq))
    rw [hconstants]
    exact agrees_nil _

theorem isClosing_exhaust (ht : p.IsTyped arity) (hguarded : ∀ r ∈ p.rules, r.IsGuarded)
    (fuel : Nat) (h : IsClosing p arity s) (hfuel : p.atomBound < fuel + s.next) :
    IsClosing p arity (exhaust (selectors p) fuel s) ∧
      (exhaust (selectors p) fuel s).next = (exhaust (selectors p) fuel s).atoms.toList.length := by
  have hle : ∀ s : ActiveSearch, IsClosing p arity s → s.atoms.toList.length ≤ p.atomBound := by
    intro s h
    rw [← Program.length_herbrandBase]
    refine (List.subperm_of_subset h.nodup fun b hb => ?_).length_le
    exact Program.mem_herbrandBase (h.admits b hb).arities (h.admits b hb).objects
  induction fuel generalizing s with
  | zero =>
      have hle := hle s h
      have hnext := h.next_le
      omega
  | succ fuel ih =>
      rw [exhaust]
      cases ha : s.atoms[s.next]? with
      | none =>
          rw [Array.getElem?_eq_none_iff] at ha
          exact ⟨h, Nat.le_antisymm h.next_le (by simpa using ha)⟩
      | some a =>
          rw [← Array.getElem?_toList] at ha
          obtain ⟨hclosing, hnext⟩ := isClosing_process ht hguarded h ha
          exact ih hclosing (by omega)

end ActiveSearch

end Datalog
end FinitePlanning
