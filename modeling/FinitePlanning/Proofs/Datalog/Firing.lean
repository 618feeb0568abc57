import FinitePlanning.Proofs.Datalog.Matching

/-!
What happens when an atom is processed. It is matched with the conditions that the
selectors find for it; all instances of rules whose conditions were then matched
have their heads among the atoms that were found.
-/

namespace FinitePlanning
namespace Datalog

section Selectors

variable {α : Type} {args : List ObjectId} {e : ConditionRef}

theorem mem_select_modify {table : Array (Selector ConditionRef)} {i j : Nat}
    {constants : List (Nat × ObjectId)} {entry : ConditionRef} (hi : i < table.size) :
    e ∈ ((table.modify j (Selector.insert constants entry)).getD i (.leaf [])).select args ↔
      e ∈ (table.getD i (.leaf [])).select args ∨
        j = i ∧ e = entry ∧ Agrees args constants := by
  have hget : (table.modify j (Selector.insert constants entry)).getD i (.leaf []) =
      if j = i then Selector.insert constants entry (table.getD i (.leaf []))
      else table.getD i (.leaf []) := by
    simp [Array.getD, hi, Array.getElem_modify]
  rw [hget]
  by_cases hj : j = i
  · rw [if_pos hj, Selector.mem_select_insert]
    simp [hj]
  · rw [if_neg hj]
    simp [hj]

theorem mem_select_foldl
    {f : Array (Selector ConditionRef) → Pattern × ConditionRef → Array (Selector ConditionRef)}
    (hf : ∀ table x, f table x =
      table.modify x.1.relation.index (Selector.insert x.1.constants x.2))
    (entries : List (Pattern × ConditionRef)) (table : Array (Selector ConditionRef)) {i : Nat}
    (hi : i < table.size) :
    e ∈ ((entries.foldl f table).getD i (.leaf [])).select args ↔
      e ∈ (table.getD i (.leaf [])).select args ∨
        ∃ x ∈ entries, x.1.relation.index = i ∧ e = x.2 ∧ Agrees args x.1.constants := by
  induction entries generalizing table with
  | nil => simp
  | cons x entries ih =>
      rw [List.foldl_cons, hf, ih _ (by rwa [Array.size_modify]), mem_select_modify hi, or_assoc]
      simp

end Selectors

/-- The condition of a rule that a reference denotes. -/
def Program.HasCondition (p : Program) (e : ConditionRef) (q : Pattern) : Prop :=
  ∃ r, p.rules[e.rule]? = some r ∧ r.body[e.condition]? = some q

theorem mem_select_selectors {p : Program} {a : GroundAtom} {e : ConditionRef}
    (ha : a.relation.index < p.symbols.relations.length) :
    e ∈ ((selectors p).getD a.relation.index (.leaf [])).select a.args ↔
      ∃ q, p.HasCondition e q ∧ q.relation = a.relation ∧ Agrees a.args q.constants := by
  rw [selectors, mem_select_foldl (fun _ _ => rfl) _ _ (by simpa using ha)]
  have hempty : e ∉ ((Array.replicate p.symbols.relations.length
      (Selector.leaf [])).getD a.relation.index (.leaf [])).select a.args := by
    simp [Array.getD, ha, Selector.select]
  simp only [hempty, false_or]
  constructor
  · rintro ⟨⟨q, entry⟩, hmem, hrelation, rfl, hagrees⟩
    obtain ⟨⟨r, i⟩, hr, hmem⟩ := List.mem_flatMap.mp hmem
    obtain ⟨⟨q, j⟩, hq, hmem⟩ := List.mem_map.mp hmem
    cases hmem
    refine ⟨q, ⟨r, List.mem_zipIdx_iff_getElem?.mp hr, List.mem_zipIdx_iff_getElem?.mp hq⟩, ?_,
      hagrees⟩
    cases hq : q.relation
    cases ha : a.relation
    simp_all
  · rintro ⟨q, ⟨r, hr, hq⟩, hrelation, hagrees⟩
    refine ⟨(q, e), ?_, congrArg RelationId.index hrelation, rfl, hagrees⟩
    exact List.mem_flatMap.mpr ⟨(r, e.rule), List.mem_zipIdx_iff_getElem?.mpr hr,
      List.mem_map.mpr ⟨(q, e.condition), List.mem_zipIdx_iff_getElem?.mpr hq, rfl⟩⟩

namespace ActiveRule

variable {r : ActiveRule} {c : Nat} {args : List ObjectId} {X Y : Set GroundAtom}

/-- What was recorded are atoms of `X`, and what follows from it is in `Y`. -/
structure Keeps (r : ActiveRule) (X Y : Set GroundAtom) : Prop extends r.IsSound where
  mem : ∀ q ∈ r.rule.body.zip r.seen, ∀ args ∈ q.2, ⟨q.1.relation, args⟩ ∈ X
  closed : ∀ σ : String → ObjectId, (∀ q ∈ r.rule.body.zip r.seen, q.1.evalArgs σ ∈ q.2) →
    r.rule.head.eval σ ∈ Y

theorem Keeps.mono {X' Y' : Set GroundAtom} (h : r.Keeps X Y) (hX : X ⊆ X') (hY : Y ⊆ Y') :
    r.Keeps X' Y' :=
  { h with
    mem := fun q hq args hargs => hX (h.mem q hq args hargs)
    closed := fun σ hσ => hY (h.closed σ hσ) }

theorem keeps_start {rule : SplitRule} (h : rule.IsSafe) : (start rule).Keeps X Y := by
  have hempty : ∀ q ∈ rule.body.zip (rule.body.map fun _ => (#[] : Array (List ObjectId))),
      q.2 = #[] := by
    intro q hq
    obtain ⟨-, hq⟩ := List.of_mem_zip hq
    obtain ⟨-, -, hq⟩ := List.mem_map.mp hq
    exact hq.symm
  refine { length := List.length_map _, recorded := fun q hq args hargs => ?_,
           mem := fun q hq args hargs => ?_, closed := fun σ hσ => ?_ }
  · rw [hempty q hq] at hargs
    exact absurd hargs (Array.not_mem_empty _)
  · rw [hempty q hq] at hargs
    exact absurd hargs (Array.not_mem_empty _)
  · obtain ⟨p, hp⟩ := List.exists_mem_of_ne_nil _ h.nonempty
    obtain ⟨i, hi⟩ := List.mem_iff_getElem?.mp hp
    have hq : (p, (#[] : Array (List ObjectId))) ∈ rule.body.zip (rule.body.map fun _ => #[]) :=
      List.mem_of_getElem? (List.getElem?_zip_eq_some.mpr ⟨hi, by
        rw [List.getElem?_map, hi]
        rfl⟩)
    exact absurd (hσ _ hq) (Array.not_mem_empty _)

theorem getElem?_zip_record (i : Nat) :
    (r.rule.body.zip (r.record c args).seen)[i]? = ((r.rule.body.zip r.seen)[i]?).map
      fun q => if c = i then (q.1, q.2.push args) else q := by
  simp only [record, List.zip, List.getElem?_zipWith, List.getElem?_modify]
  cases r.rule.body[i]? with
  | none => rfl
  | some p =>
      cases r.seen[i]? with
      | none => rfl
      | some seen => by_cases hc : c = i <;> simp [hc]

/-- A condition of a rule after an atom was recorded. -/
theorem of_mem_zip_record {q : Pattern × Array (List ObjectId)}
    (h : q ∈ r.rule.body.zip (r.record c args).seen) :
    ∃ seen, (q.1, seen) ∈ r.rule.body.zip r.seen ∧
      ∀ args' ∈ q.2, args' ∈ seen ∨ args' = args ∧ r.rule.body[c]? = some q.1 := by
  obtain ⟨i, hi⟩ := List.mem_iff_getElem?.mp h
  rw [getElem?_zip_record] at hi
  obtain ⟨q', hq', rfl⟩ := Option.map_eq_some_iff.mp hi
  by_cases hc : c = i
  · subst hc
    simp only [if_true]
    refine ⟨q'.2, List.mem_of_getElem? hq', fun args' hargs => ?_⟩
    rcases Array.mem_push.mp hargs with hargs | rfl
    · exact .inl hargs
    · exact .inr ⟨rfl, (List.getElem?_zip_eq_some.mp hq').1⟩
  · simp only [if_neg hc]
    exact ⟨q'.2, List.mem_of_getElem? hq', fun args' hargs => .inl hargs⟩

theorem Keeps.record {X' Y' : Set GroundAtom} {own : Pattern} (h : r.Keeps X Y)
    (hsafe : r.rule.IsSafe) (hc : r.rule.body[c]? = some own) (hargs : own.Matches args)
    (hX : X ⊆ X') (hmem : (⟨own.relation, args⟩ : GroundAtom) ∈ X') (hY : Y ⊆ Y')
    (hfound : ∀ a ∈ r.consequences c args, a ∈ Y') : (r.record c args).Keeps X' Y' := by
  refine { length := (List.length_modify _ _ _).trans h.length, recorded := fun q hq => ?_,
           mem := fun q hq => ?_, closed := fun σ hσ => ?_ }
  · obtain ⟨seen, hq, hseen⟩ := of_mem_zip_record (r := r) hq
    intro args' hargs'
    rcases hseen args' hargs' with hargs' | ⟨rfl, hown⟩
    · exact h.recorded _ hq _ hargs'
    · obtain rfl := Option.some.inj (hc.symm.trans hown)
      exact hargs
  · obtain ⟨seen, hq, hseen⟩ := of_mem_zip_record (r := r) hq
    intro args' hargs'
    rcases hseen args' hargs' with hargs' | ⟨rfl, hown⟩
    · exact hX (h.mem _ hq _ hargs')
    · obtain rfl := Option.some.inj (hc.symm.trans hown)
      exact hmem
  · have hget : r.rule.body.getD c default = own := by
      rw [List.getD_eq_getElem?_getD, hc]
      rfl
    -- the other conditions were matched before
    have hothers : ∀ q ∈ r.others c, q.1.evalArgs σ ∈ q.2 := by
      intro q hq
      obtain ⟨i, hic, hi⟩ := mem_others.mp hq
      refine hσ q (List.mem_of_getElem? (i := i) ((getElem?_zip_record (r := r) i).trans ?_))
      rw [hi, Option.map_some, if_neg hic.symm]
    have hlt : c < r.seen.length := h.length ▸ (List.getElem?_eq_some_iff.mp hc).1
    have hnew : own.evalArgs σ ∈ r.seen[c].push args := by
      refine hσ (own, r.seen[c].push args) (List.mem_of_getElem? (i := c) ?_)
      refine List.getElem?_zip_eq_some.mpr ⟨hc, ?_⟩
      simp only [ActiveRule.record, List.getElem?_modify]
      simp [hlt]
    rcases Array.mem_push.mp hnew with hold | hnew
    · refine hY (h.closed σ fun q hq => ?_)
      obtain ⟨i, hi⟩ := List.mem_iff_getElem?.mp hq
      by_cases hic : i = c
      · obtain ⟨hp, hs⟩ := List.getElem?_zip_eq_some.mp hi
        rw [hic, hc] at hp
        rw [hic, List.getElem?_eq_getElem hlt] at hs
        rw [← Option.some.inj hp, ← Option.some.inj hs]
        exact hold
      · exact hothers q (mem_others.mpr ⟨i, hic, hi⟩)
    · refine hfound _ ?_
      have hfollows := mem_consequences (c := c) hsafe h.toIsSound hothers
      rwa [hget, hnew] at hfollows

end ActiveRule

/-- The rules of a program with what they recorded of the atoms of `X`. -/
structure Tracks (p : Program) (rules : Array ActiveRule) (X Y : Set GroundAtom) : Prop where
  rule : ∀ i : Nat, (rules[i]?).map ActiveRule.rule = p.rules[i]?
  keeps : ∀ (i : Nat) (r : ActiveRule), rules[i]? = some r → r.Keeps X Y

/-- Arguments that were recorded for a condition. -/
def HasSeen (rules : Array ActiveRule) (e : ConditionRef) (args : List ObjectId) : Prop :=
  ∃ r, rules[e.rule]? = some r ∧ ∃ seen, r.seen[e.condition]? = some seen ∧ args ∈ seen

variable {p : Program} {rules : Array ActiveRule} {X Y : Set GroundAtom} {a : GroundAtom}
  {e : ConditionRef} {q : Pattern}

theorem Tracks.mono {X' Y' : Set GroundAtom} (h : Tracks p rules X Y) (hX : X ⊆ X')
    (hY : Y ⊆ Y') : Tracks p rules X' Y' where
  rule := h.rule
  keeps i r hr := (h.keeps i r hr).mono hX hY

theorem tracks_start (hsafe : ∀ r ∈ p.rules, r.IsSafe) :
    Tracks p (p.rules.map ActiveRule.start).toArray X Y where
  rule i := by
    rw [List.getElem?_toArray, List.getElem?_map, Option.map_map]
    exact Option.map_id'
  keeps i r hr := by
    rw [List.getElem?_toArray, List.getElem?_map] at hr
    obtain ⟨rule, hrule, rfl⟩ := Option.map_eq_some_iff.mp hr
    exact ActiveRule.keeps_start (hsafe rule (List.mem_of_getElem? hrule))

/-- The active rule of a condition. -/
theorem Tracks.exists_rule (h : Tracks p rules X Y) (he : p.HasCondition e q) :
    ∃ r, rules[e.rule]? = some r ∧ r.rule ∈ p.rules ∧ r.rule.body[e.condition]? = some q := by
  obtain ⟨rule, hrule, hq⟩ := he
  obtain ⟨r, hr, rfl⟩ := Option.map_eq_some_iff.mp ((h.rule e.rule).trans hrule)
  exact ⟨r, hr, List.mem_of_getElem? hrule, hq⟩

namespace ActiveSearch

/-- Lets an atom match a condition. Yields what follows. -/
def fire (rules : Array ActiveRule) (args : List ObjectId) (c : ConditionRef) :
    List GroundAtom × Array ActiveRule :=
  let r := rules.getD c.rule default
  (r.consequences c.condition args, rules.modify c.rule (·.record c.condition args))

theorem getElem?_fire (args : List ObjectId) (i : Nat) :
    (fire rules args e).2[i]? = (rules[i]?).map
      fun r => if e.rule = i then r.record e.condition args else r := by
  rw [fire, Array.getElem?_modify]
  by_cases hi : e.rule = i
  · simp [hi]
  · simp [hi]

theorem hasSeen_fire (h : Tracks p rules X Y) (he : p.HasCondition e q) (args : List ObjectId) :
    HasSeen (fire rules args e).2 e args := by
  obtain ⟨r, hr, -, hq⟩ := h.exists_rule he
  have hlt : e.condition < r.seen.length :=
    (h.keeps _ r hr).length ▸ (List.getElem?_eq_some_iff.mp hq).1
  refine ⟨r.record e.condition args, by rw [getElem?_fire, hr]; simp, r.seen[e.condition].push args,
    ?_, Array.mem_push_self⟩
  rw [ActiveRule.record, List.getElem?_modify]
  simp [hlt]

theorem hasSeen_fire_of {e' : ConditionRef} {args args' : List ObjectId}
    (h : HasSeen rules e' args') : HasSeen (fire rules args e).2 e' args' := by
  obtain ⟨r, hr, seen, hseen, hmem⟩ := h
  by_cases hi : e.rule = e'.rule
  · refine ⟨r.record e.condition args, by rw [getElem?_fire, hr]; simp [hi], ?_⟩
    by_cases hc : e.condition = e'.condition
    · refine ⟨seen.push args, ?_, Array.mem_push.mpr (.inl hmem)⟩
      rw [ActiveRule.record, List.getElem?_modify, hseen]
      simp [hc]
    · refine ⟨seen, ?_, hmem⟩
      rw [ActiveRule.record, List.getElem?_modify, hseen]
      simp [hc]
  · exact ⟨r, by rw [getElem?_fire, hr]; simp [hi], seen, hseen, hmem⟩

theorem getD_rules {r : ActiveRule} (hr : rules[e.rule]? = some r) :
    rules.getD e.rule default = r := by
  rw [Array.getD_eq_getD_getElem?, hr]
  rfl

theorem tracks_fire (hsafe : ∀ r ∈ p.rules, r.IsSafe) (h : Tracks p rules X Y)
    (he : p.HasCondition e q) (hq : q.relation = a.relation) (hargs : q.Matches a.args)
    (ha : a ∈ X) :
    Tracks p (fire rules a.args e).2 X (Y ∪ {b | b ∈ (fire rules a.args e).1}) := by
  obtain ⟨own, hown, hmem, hbody⟩ := h.exists_rule he
  refine ⟨fun i => ?_, fun i r hr => ?_⟩
  · rw [getElem?_fire, ← h.rule i, Option.map_map]
    refine congrArg (Option.map · _) (funext fun r => ?_)
    by_cases hi : e.rule = i <;> simp [hi, ActiveRule.record]
  · rw [getElem?_fire] at hr
    obtain ⟨r', hr', rfl⟩ := Option.map_eq_some_iff.mp hr
    by_cases hi : e.rule = i
    · rw [if_pos hi]
      subst hi
      obtain rfl := Option.some.inj (hown.symm.trans hr')
      refine (h.keeps _ _ hr').record (hsafe _ hmem) hbody hargs subset_rfl ?_
        Set.subset_union_left fun b hb => .inr ?_
      · rw [hq]
        exact ha
      · change b ∈ (rules.getD e.rule default).consequences e.condition a.args
        rw [getD_rules hr']
        exact hb
    · rw [if_neg hi]
      exact (h.keeps i r' hr').mono subset_rfl Set.subset_union_left

/-- What follows from atoms of the model belongs to the model. -/
theorem mem_meaning_of_mem_fire (hsafe : ∀ r ∈ p.rules, r.IsSafe) (h : Tracks p rules X Y)
    (he : p.HasCondition e q) (hq : q.relation = a.relation) (hargs : q.Matches a.args)
    (ha : a ∈ X) (hX : X ⊆ p.meaning) {b : GroundAtom} (hb : b ∈ (fire rules a.args e).1) :
    b ∈ p.meaning := by
  obtain ⟨r, hr, hmem, hbody⟩ := h.exists_rule he
  have hkeeps := h.keeps _ r hr
  have hget : r.rule.body.getD e.condition default = q := by
    rw [List.getD_eq_getElem?_getD, hbody]
    rfl
  rw [fire, getD_rules hr] at hb
  obtain ⟨σ, hown, hothers, rfl⟩ := ActiveRule.exists_of_mem_consequences (hsafe _ hmem)
    hkeeps.toIsSound (List.getElem?_eq_some_iff.mp hbody).1 (hget.symm ▸ hargs) hb
  have hrule : r.rule.toRule ∈ p.ruleSet := ⟨r.rule, hmem, rfl⟩
  refine holds_leastModel hrule σ fun c hc => hX ?_
  rcases ActiveRule.eq_or_mem_others (c := e.condition) hkeeps.length hc with rfl | ⟨o, ho, rfl⟩
  · rw [Pattern.eval, hown, hget, hq]
    exact ha
  · exact hkeeps.mem o (ActiveRule.mem_zip_of_mem_others ho) _ (hothers o ho)

/-- Firing all conditions of a list. -/
theorem fold_fire {f : List GroundAtom × Array ActiveRule → ConditionRef →
      List GroundAtom × Array ActiveRule}
    (hf : ∀ acc c, f acc c = (acc.1 ++ (fire acc.2 a.args c).1, (fire acc.2 a.args c).2))
    (hsafe : ∀ r ∈ p.rules, r.IsSafe) (ha : a ∈ X) (hX : X ⊆ p.meaning) (es : List ConditionRef)
    (hes : ∀ e ∈ es, ∃ q, p.HasCondition e q ∧ q.relation = a.relation ∧ q.Matches a.args)
    (acc : List GroundAtom × Array ActiveRule) (h : Tracks p acc.2 X (Y ∪ {b | b ∈ acc.1})) :
    Tracks p (es.foldl f acc).2 X (Y ∪ {b | b ∈ (es.foldl f acc).1}) ∧
      ((∀ b ∈ acc.1, b ∈ p.meaning) → ∀ b ∈ (es.foldl f acc).1, b ∈ p.meaning) ∧
      (∀ e args, HasSeen acc.2 e args → HasSeen (es.foldl f acc).2 e args) ∧
      ∀ e ∈ es, HasSeen (es.foldl f acc).2 e a.args := by
  induction es generalizing acc with
  | nil => exact ⟨h, id, fun _ _ => id, fun e he => absurd he List.not_mem_nil⟩
  | cons e es ih =>
      rw [List.forall_mem_cons] at hes
      obtain ⟨⟨q, hq, hrelation, hargs⟩, hes⟩ := hes
      have hstep := tracks_fire hsafe h hq hrelation hargs ha
      have hfound := fun b => mem_meaning_of_mem_fire hsafe h hq hrelation hargs ha hX (b := b)
      obtain ⟨htracks, hmeaning, hseen, hall⟩ := ih hes (f acc e) (by
        rw [hf]
        refine hstep.mono subset_rfl fun b hb => ?_
        rcases hb with (hb | hb) | hb
        · exact .inl hb
        · exact .inr (List.mem_append_left _ hb)
        · exact .inr (List.mem_append_right _ hb))
      rw [List.foldl_cons]
      refine ⟨htracks, fun hacc => hmeaning fun b hb => ?_, fun e' args' h' => hseen e' args' ?_,
        List.forall_mem_cons.mpr ⟨hseen e _ ?_, hall⟩⟩
      · rw [hf] at hb
        exact (List.mem_append.mp hb).elim (hacc b) (hfound b)
      · rw [hf]
        exact hasSeen_fire_of h'
      · rw [hf]
        exact hasSeen_fire h hq a.args

end ActiveSearch
end Datalog
end FinitePlanning
