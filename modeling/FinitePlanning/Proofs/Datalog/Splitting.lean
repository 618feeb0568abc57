import Mathlib.Data.List.Nodup
import FinitePlanning.Proofs.Datalog.Components
import FinitePlanning.Proofs.Datalog.Joins

/-!
Rules that are split have the instances of the original rule. The heads of the rules
for the new relations stand for what their bodies say, so that they can be replaced
by these again.
-/

namespace FinitePlanning
namespace Datalog

variable {σ τ : String → ObjectId} {p q : Pattern} {X : Set GroundAtom}

namespace Pattern

theorem eq_of_eval_eq (h : p.eval σ = p.eval τ) {v : String} (hv : v ∈ p.vars) : σ v = τ v := by
  have hargs : p.args.map (·.eval σ) = p.args.map (·.eval τ) := congrArg GroundAtom.args h
  exact List.map_inj_left.mp hargs _ (mem_vars.mp hv)

/-- A relation applied to variables. -/
def ofVars (id : Nat) (vars : List String) : Pattern := ⟨⟨id⟩, vars.map .variable⟩

@[simp] theorem vars_ofVars (id : Nat) (vars : List String) : (ofVars id vars).vars = vars := by
  simp [ofVars, Pattern.vars, List.filterMap_map, Function.comp_def, Term.variable?]

theorem object_notMem_ofVars (id : Nat) (vars : List String) (o : ObjectId) :
    Term.object o ∉ (ofVars id vars).args := by
  simp [ofVars]

end Pattern

/-- Atoms with the relation of the head come from instances of the rule. -/
def Supports (X : Set GroundAtom) (r : SplitRule) : Prop :=
  ∀ a ∈ X, a.relation = r.head.relation →
    ∃ σ, r.head.eval σ = a ∧ ∀ p ∈ r.body, p.eval σ ∈ X

namespace SplitState

variable {s : SplitState}

/-- The number of relations so far. -/
def count (s : SplitState) : Nat := s.symbols.relations.length

/-- The auxiliary relations to come are new. -/
def IsFresh (s : SplitState) : Prop :=
  ∀ k, s.nextAuxiliary ≤ k → .auxiliary k ∉ s.symbols.relations

/-- The state with one more auxiliary relation. -/
def next (s : SplitState) : SplitState where
  symbols := { s.symbols with relations := s.symbols.relations ++ [.auxiliary s.nextAuxiliary] }
  nextAuxiliary := s.nextAuxiliary + 1

@[simp] theorem count_next : s.next.count = s.count + 1 := List.length_append

theorem IsFresh.next (h : s.IsFresh) : s.next.IsFresh := by
  intro k hk hmem
  have hk : s.nextAuxiliary + 1 ≤ k := hk
  rcases List.mem_append.mp hmem with hmem | hmem
  · exact h k (by omega) hmem
  · have he : Relation.auxiliary k = .auxiliary s.nextAuxiliary := List.mem_singleton.mp hmem
    injection he with he
    omega

/-- The state after some more auxiliary relations. -/
def Extends (s s' : SplitState) : Prop := ∃ k, SplitState.next^[k] s = s'

theorem Extends.refl (s : SplitState) : s.Extends s := ⟨0, rfl⟩

theorem extends_next (s : SplitState) : s.Extends s.next := ⟨1, rfl⟩

theorem Extends.trans {s₁ s₂ s₃ : SplitState} (h : s₁.Extends s₂) (h' : s₂.Extends s₃) :
    s₁.Extends s₃ := by
  obtain ⟨k, rfl⟩ := h
  obtain ⟨l, rfl⟩ := h'
  exact ⟨l + k, Function.iterate_add_apply _ l k s₁⟩

theorem Extends.induction {motive : SplitState → Prop} {s s' : SplitState} (h : s.Extends s')
    (start : motive s) (step : ∀ s, motive s → motive s.next) : motive s' := by
  obtain ⟨k, rfl⟩ := h
  induction k with
  | zero => exact start
  | succ k ih =>
      rw [Function.iterate_succ_apply']
      exact step _ ih

theorem Extends.isFresh {s s' : SplitState} (h : s.Extends s') (hs : s.IsFresh) : s'.IsFresh :=
  h.induction hs fun _ => IsFresh.next

end SplitState

open SplitState (next)

variable {s s' : SplitState} {α β : Type}

theorem freshPattern_run (h : s.IsFresh) (vars : List String) :
    (freshPattern vars).run s = (Pattern.ofVars s.count vars, s.next) := by
  have hid : s.symbols.relationId? (.auxiliary s.nextAuxiliary) = none := by
    rw [SymbolTable.relationId?, Option.map_eq_none_iff, List.idxOf?_eq_none_iff]
    exact h _ (Nat.le_refl _)
  have hintern : (SymbolTable.internRelation (.auxiliary s.nextAuxiliary)).run s.symbols =
      (⟨s.count⟩, { s.symbols with
        relations := s.symbols.relations ++ [.auxiliary s.nextAuxiliary] }) := by
    rw [SymbolTable.internRelation, StateT.run_bind]
    simp only [StateT.run_get, pure_bind, hid]
    rfl
  rw [freshPattern, StateT.run_bind]
  simp only [StateT.run_get, pure_bind, hintern]
  rfl

/-- Rules that define new relations. Their conditions are given or new themselves. -/
structure NewRules (n n' : Nat) (given : List Pattern) (rs : List SplitRule) : Prop where
  le : n ≤ n'
  nodup : (rs.map (·.head.relation)).Nodup
  range : ∀ x ∈ rs, n ≤ x.head.relation.index ∧ x.head.relation.index < n'
  proper : ∀ x ∈ rs, x.IsProper
  distinct : ∀ x ∈ rs, x.head.vars.Nodup
  objects : ∀ x ∈ rs, ∀ o, Term.object o ∉ x.head.args
  bodies : ∀ x ∈ rs, ∀ q ∈ x.body, q ∈ given ∨ ∃ y ∈ rs, q = y.head

namespace NewRules

variable {n n' m : Nat} {given given' : List Pattern} {rs rs' : List SplitRule}

theorem nil (h : n ≤ n') (given : List Pattern) : NewRules n n' given [] where
  le := h
  nodup := List.nodup_nil
  range _ hx := absurd hx List.not_mem_nil
  proper _ hx := absurd hx List.not_mem_nil
  distinct _ hx := absurd hx List.not_mem_nil
  objects _ hx := absurd hx List.not_mem_nil
  bodies _ hx := absurd hx List.not_mem_nil

theorem singleton {x : SplitRule} (hrange : n ≤ x.head.relation.index ∧
    x.head.relation.index < n') (hproper : x.IsProper) (hdistinct : x.head.vars.Nodup)
    (hobjects : ∀ o, Term.object o ∉ x.head.args) (hbody : ∀ q ∈ x.body, q ∈ given) :
    NewRules n n' given [x] where
  le := by omega
  nodup := List.nodup_singleton _
  range := List.forall_mem_singleton.mpr hrange
  proper := List.forall_mem_singleton.mpr hproper
  distinct := List.forall_mem_singleton.mpr hdistinct
  objects := List.forall_mem_singleton.mpr hobjects
  bodies := List.forall_mem_singleton.mpr fun q hq => .inl (hbody q hq)

theorem append (h : NewRules n m given rs) (h' : NewRules m n' given' rs')
    (hgiven : ∀ q ∈ given', q ∈ given ∨ ∃ y ∈ rs, q = y.head) :
    NewRules n n' given (rs ++ rs') where
  le := h.le.trans h'.le
  nodup := by
    rw [List.map_append]
    refine List.nodup_append.mpr ⟨h.nodup, h'.nodup, fun r hr r' hr' he => ?_⟩
    obtain ⟨x, hx, rfl⟩ := List.mem_map.mp hr
    obtain ⟨x', hx', hxx'⟩ := List.mem_map.mp hr'
    have hlt := (h.range x hx).2
    have hle := (h'.range x' hx').1
    rw [hxx', ← he] at hle
    omega
  range x hx := by
    have := h.le
    have := h'.le
    rcases List.mem_append.mp hx with hx | hx
    · exact ⟨(h.range x hx).1, (h.range x hx).2.trans_le h'.le⟩
    · exact ⟨h.le.trans (h'.range x hx).1, (h'.range x hx).2⟩
  proper x hx := (List.mem_append.mp hx).elim (h.proper x) (h'.proper x)
  distinct x hx := (List.mem_append.mp hx).elim (h.distinct x) (h'.distinct x)
  objects x hx := (List.mem_append.mp hx).elim (h.objects x) (h'.objects x)
  bodies x hx q hq := by
    have hleft : ∀ {q}, (q ∈ given ∨ ∃ y ∈ rs, q = y.head) →
        q ∈ given ∨ ∃ y ∈ rs ++ rs', q = y.head := fun hq =>
      hq.imp_right fun ⟨y, hy, he⟩ => ⟨y, List.mem_append_left _ hy, he⟩
    rcases List.mem_append.mp hx with hx | hx
    · exact hleft (h.bodies x hx q hq)
    · rcases h'.bodies x hx q hq with hq | ⟨y, hy, he⟩
      · exact hleft (hgiven q hq)
      · exact .inr ⟨y, List.mem_append_right _ hy, he⟩

/-- New rules are safe if no given condition repeats a variable. -/
theorem isSafe (h : NewRules n n' given rs) (hgiven : ∀ q ∈ given, q.vars.Nodup) :
    ∀ x ∈ rs, x.IsSafe := by
  refine fun x hx => (h.proper x hx).isGuarded.isSafe fun q hq => ?_
  rcases h.bodies x hx q hq with hq | ⟨y, hy, rfl⟩
  · exact hgiven q hq
  · exact h.distinct y hy

end NewRules

/-- A condition that was projected to some of its variables. -/
structure Projects (n n' : Nat) (retained : List String) (p q : Pattern) (rs : List SplitRule) :
    Prop extends NewRules n n' [p] rs where
  source : q = p ∨ ∃ y ∈ rs, q = y.head
  vars : ∀ v, v ∈ q.vars ↔ v ∈ p.vars ∧ v ∈ retained
  complete : ∀ X, (∀ x ∈ rs, x.toRule.Holds X) → ∀ σ, p.eval σ ∈ X → q.eval σ ∈ X
  unfold : ∀ X, (∀ x ∈ rs, Supports X x) → ∀ σ, q.eval σ ∈ X →
    ∃ τ, (∀ v ∈ q.vars, τ v = σ v) ∧ p.eval τ ∈ X

theorem nodup_vars_filter_variableSet (id : Nat) (ps : List Pattern) (keep : String → Bool) :
    (Pattern.ofVars id ((variableSet ps).filter keep)).vars.Nodup := by
  rw [Pattern.vars_ofVars]
  exact (nodup_variableSet ps).filter keep

theorem isProper_project (hhead : q.vars ⊆ p.vars) :
    ({ kind := .project, body := [p], head := q } : SplitRule).IsProper where
  kind := rfl
  bound _ hv := ⟨p, List.mem_singleton_self p, hhead hv⟩

theorem projectTo_run (h : s.IsFresh) (retained : List String) :
    ∃ s' q rs, (projectTo retained p).run s = ((q, rs), s') ∧ s.Extends s' ∧
      Projects s.count s'.count retained p q rs := by
  rw [projectTo]
  by_cases hall : (variableSet [p]).filter (· ∈ retained) = variableSet [p]
  · refine ⟨s, p, [], by rw [if_pos hall]; rfl, .refl s, {
      NewRules.nil (Nat.le_refl _) [p] with
      source := .inl rfl
      vars := fun v => ⟨fun hv => ⟨hv, ?_⟩, fun hv => hv.1⟩
      complete := fun X _ σ hσ => hσ
      unfold := fun X _ σ hσ => ⟨σ, fun _ _ => rfl, hσ⟩ }⟩
    have hmem : v ∈ variableSet [p] := mem_variableSet.mpr ⟨p, List.mem_singleton_self p, hv⟩
    rw [← hall] at hmem
    simpa using (List.mem_filter.mp hmem).2
  · simp only [if_neg hall]
    refine ⟨s.next, _, _, run_bind_of_run (freshPattern_run h _), s.extends_next, ?_⟩
    have hvars : ∀ v, v ∈ (variableSet [p]).filter (· ∈ retained) ↔ v ∈ p.vars ∧ v ∈ retained :=
      fun v => by simp [mem_variableSet]
    have hproper := isProper_project (p := p) (q := .ofVars s.count
      ((variableSet [p]).filter (· ∈ retained))) (by
        rw [Pattern.vars_ofVars]
        exact fun v hv => ((hvars v).mp hv).1)
    exact {
      NewRules.singleton ⟨Nat.le_refl _, SplitState.count_next ▸ Nat.lt_succ_self _⟩
        hproper (nodup_vars_filter_variableSet _ _ _) (Pattern.object_notMem_ofVars _ _)
        (fun q hq => hq) with
      source := .inr ⟨_, List.mem_singleton_self _, rfl⟩
      vars := fun v => by rw [Pattern.vars_ofVars, hvars]
      complete := fun X hX σ hσ => hX _ (List.mem_singleton_self _) σ fun q hq =>
        List.mem_singleton.mp hq ▸ hσ
      unfold := fun X hX σ hσ => by
        obtain ⟨τ, hτ, hbody⟩ := hX _ (List.mem_singleton_self _) _ hσ rfl
        exact ⟨τ, fun v hv => Pattern.eq_of_eval_eq hτ hv, hbody p (List.mem_singleton_self p)⟩ }

/-- The rule with the head of a rule that was split, next to rules for new relations. -/
structure IsLast (r : Rule) (aux : List SplitRule) (last : SplitRule) : Prop where
  head : last.head = r.head
  last_proper : last.IsProper
  last_body : ∀ q ∈ last.body, q ∈ r.body ∨ ∃ y ∈ aux, q = y.head
  complete : ∀ X, (∀ x ∈ aux, x.toRule.Holds X) → last.toRule.Holds X → r.Holds X
  unfold : ∀ X, (∀ x ∈ aux, Supports X x) → ∀ σ, (∀ q ∈ last.body, q.eval σ ∈ X) →
    ∃ τ, (∀ v ∈ r.head.vars, τ v = σ v) ∧ ∀ q ∈ r.body, q.eval τ ∈ X

theorem IsLast.mono {r : Rule} {aux aux' : List SplitRule} {last : SplitRule}
    (h : IsLast r aux last) (haux : ∀ x ∈ aux, x ∈ aux') : IsLast r aux' last where
  head := h.head
  last_proper := h.last_proper
  last_body q hq := (h.last_body q hq).imp_right fun ⟨y, hy, he⟩ => ⟨y, haux y hy, he⟩
  complete X hX := h.complete X fun x hx => hX x (haux x hx)
  unfold X hX := h.unfold X fun x hx => hX x (haux x hx)

/-- A rule that was split into rules for new relations and a rule with its head. -/
structure Splits (n n' : Nat) (r : Rule) (aux : List SplitRule) (last : SplitRule) :
    Prop extends NewRules n n' r.body aux, IsLast r aux last

section Join

variable {left right left' right' : Pattern} {first second : List SplitRule}
  {needed : List String} {n m n' : Nat}

/-- The common variables of two conditions that are joined, and those that are needed
later. -/
def joinVariables (left right : Pattern) (needed : List String) : List String :=
  (variableSet [left, right]).filter (· ∈ needed) ++ left.vars.filter (· ∈ right.vars)

theorem mem_joinVariables {v : String} : v ∈ joinVariables left right needed ↔
    (v ∈ left.vars ∨ v ∈ right.vars) ∧ v ∈ needed ∨ v ∈ left.vars ∧ v ∈ right.vars := by
  simp [joinVariables, mem_variableSet]

/-- Values for projected conditions come from values for the conditions themselves,
which agree on the variables that are needed. -/
theorem unfold_join (hl : Projects n m (joinVariables left right needed) left left' first)
    (hr : Projects m n' (joinVariables left right needed) right right' second)
    (hfirst : ∀ x ∈ first, Supports X x) (hsecond : ∀ x ∈ second, Supports X x)
    (hleft : left'.eval σ ∈ X) (hright : right'.eval σ ∈ X) :
    ∃ τ, (∀ v ∈ needed, τ v = σ v) ∧ left.eval τ ∈ X ∧ right.eval τ ∈ X := by
  obtain ⟨ρ, hρ, hleft⟩ := hl.unfold X hfirst σ hleft
  obtain ⟨π, hπ, hright⟩ := hr.unfold X hsecond σ hright
  have hρ : ∀ v ∈ left.vars, v ∈ joinVariables left right needed → ρ v = σ v :=
    fun v hv hj => hρ v ((hl.vars v).mpr ⟨hv, hj⟩)
  have hπ : ∀ v ∈ right.vars, v ∈ joinVariables left right needed → π v = σ v :=
    fun v hv hj => hπ v ((hr.vars v).mpr ⟨hv, hj⟩)
  refine ⟨fun v => if v ∈ left.vars then ρ v else if v ∈ right.vars then π v else σ v,
    fun v hv => ?_, ?_, ?_⟩
  · by_cases hvl : v ∈ left.vars
    · exact (if_pos hvl).trans (hρ v hvl (mem_joinVariables.mpr (.inl ⟨.inl hvl, hv⟩)))
    · by_cases hvr : v ∈ right.vars
      · exact (if_neg hvl).trans ((if_pos hvr).trans
          (hπ v hvr (mem_joinVariables.mpr (.inl ⟨.inr hvr, hv⟩))))
      · exact (if_neg hvl).trans (if_neg hvr)
  · rw [Pattern.eval_congr (τ := ρ) fun v hv => if_pos hv]
    exact hleft
  · rw [Pattern.eval_congr (τ := π) fun v hv => ?_]
    · exact hright
    · by_cases hvl : v ∈ left.vars
      · have hcommon : v ∈ joinVariables left right needed :=
          mem_joinVariables.mpr (.inr ⟨hvl, hv⟩)
        exact (if_pos hvl).trans ((hρ v hvl hcommon).trans (hπ v hv hcommon).symm)
      · exact (if_neg hvl).trans (if_pos hv)

/-- A rule that joins two projected conditions. -/
theorem isProper_join (hl : Projects n m (joinVariables left right needed) left left' first)
    (hr : Projects m n' (joinVariables left right needed) right right' second) {head : Pattern}
    (hhead : ∀ v ∈ head.vars, (v ∈ left.vars ∨ v ∈ right.vars) ∧ v ∈ needed) :
    ({ kind := .join, body := [left', right'], head } : SplitRule).IsProper where
  kind := rfl
  bound v hv := by
    have hj := mem_joinVariables.mpr (.inl (hhead v hv))
    rcases (hhead v hv).1 with hvl | hvr
    · exact ⟨left', by simp, (hl.vars v).mpr ⟨hvl, hj⟩⟩
    · exact ⟨right', by simp, (hr.vars v).mpr ⟨hvr, hj⟩⟩

/-- Values for the variables of two conditions, with other values for all others. -/
theorem exists_merged_values (p q : Pattern) (ρ τ : String → ObjectId) :
    ∃ π : String → ObjectId, (∀ v, v ∈ p.vars ∨ v ∈ q.vars → π v = ρ v) ∧
      ∀ v, ¬ (v ∈ p.vars ∨ v ∈ q.vars) → π v = τ v :=
  ⟨fun v => if v ∈ p.vars ∨ v ∈ q.vars then ρ v else τ v, fun _ h => if_pos h,
    fun _ h => if_neg h⟩

end Join

section Pairs

theorem mem_positionPairs {n i j : Nat} : (i, j) ∈ positionPairs n ↔ j < i ∧ i < n := by
  simp only [positionPairs, List.mem_flatMap, List.mem_range, List.mem_map, Prod.mk.injEq]
  constructor
  · rintro ⟨i', hi', j', hj', rfl, rfl⟩
    exact ⟨hj', hi'⟩
  · exact fun ⟨hj, hi⟩ => ⟨i, hi, j, hj, rfl, rfl⟩

theorem foldl_best {f : Option (Nat × Nat) → Nat × Nat → Option (Nat × Nat)}
    (hf : ∀ best? pair, f best? pair = some pair ∨ f best? pair = best? ∧ best?.isSome)
    (pairs : List (Nat × Nat)) (best? : Option (Nat × Nat)) :
    pairs.foldl f best? = best? ∧ (best?.isSome ∨ pairs = []) ∨
      ∃ pair ∈ pairs, pairs.foldl f best? = some pair := by
  induction pairs generalizing best? with
  | nil => exact .inl ⟨rfl, .inr rfl⟩
  | cons pair pairs ih =>
      rw [List.foldl_cons]
      rcases ih (f best? pair) with ⟨hsame, -⟩ | ⟨other, hother, hfold⟩
      · rw [hsame]
        rcases hf best? pair with hpair | ⟨hbest, hsome⟩
        · exact .inr ⟨pair, List.mem_cons_self, hpair⟩
        · exact .inl ⟨hbest, .inl hsome⟩
      · exact .inr ⟨other, List.mem_cons_of_mem _ hother, hfold⟩

theorem exists_foldl_best {f : Option (Nat × Nat) → Nat × Nat → Option (Nat × Nat)}
    (hf : ∀ best? pair, f best? pair = some pair ∨ f best? pair = best? ∧ best?.isSome)
    {n : Nat} (h : 2 ≤ n) :
    ∃ i j, (positionPairs n).foldl f none = some (i, j) ∧ j < i ∧ i < n := by
  rcases foldl_best hf (positionPairs n) none with ⟨-, hnone⟩ | ⟨⟨i, j⟩, hmem, hpair⟩
  · have hmem := mem_positionPairs.mpr ⟨Nat.zero_lt_one, h⟩
    rw [hnone.resolve_left Bool.false_ne_true] at hmem
    exact absurd hmem List.not_mem_nil
  · exact ⟨i, j, hpair, mem_positionPairs.mp hmem⟩

/-- Of two or more conditions a pair is joined. -/
theorem exists_cheapestPair {conditions : List Pattern} (h : 2 ≤ conditions.length) :
    ∃ i j, cheapestPair? conditions = some (i, j) ∧ j < i ∧ i < conditions.length := by
  refine exists_foldl_best (fun best? pair => ?_) h
  cases best? with
  | none => exact .inl rfl
  | some best =>
      split
      next hbest =>
        cases hbest
      next hbest =>
        split
        next => exact .inl rfl
        next => exact .inr ⟨hbest.symm, rfl⟩

variable {conditions : List Pattern} {i j : Nat}

/-- The conditions that are left when two are joined. -/
def withoutPair (conditions : List Pattern) (i j : Nat) : List Pattern :=
  (conditions.eraseIdx i).eraseIdx j

theorem length_withoutPair (hj : j < i) (hi : i < conditions.length) :
    (withoutPair conditions i j).length + 2 = conditions.length := by
  rw [withoutPair, List.length_eraseIdx, List.length_eraseIdx, if_pos hi, if_pos (by omega)]
  omega

theorem mem_of_pair (hj : j < i) (hi : i < conditions.length) :
    p ∈ conditions ↔ p = conditions.getD i default ∨ p = conditions.getD j default ∨
      p ∈ withoutPair conditions i j := by
  have hget : ∀ {k}, k < conditions.length → conditions[k]? = some (conditions.getD k default) :=
    fun hk => by rw [List.getD_eq_getElem?_getD, List.getElem?_eq_getElem hk]; rfl
  constructor
  · intro hp
    obtain ⟨k, hk⟩ := List.mem_iff_getElem?.mp hp
    by_cases hki : k = i
    · subst hki
      exact .inl (Option.some.inj (hk.symm.trans (hget hi)))
    · by_cases hkj : k = j
      · subst hkj
        exact .inr (.inl (Option.some.inj (hk.symm.trans (hget (hj.trans hi)))))
      · refine .inr (.inr (List.mem_eraseIdx_iff_getElem?.mpr ?_))
        by_cases hlt : k < i
        · exact ⟨k, hkj, by rw [List.getElem?_eraseIdx, if_pos hlt, hk]⟩
        · refine ⟨k - 1, by omega, ?_⟩
          rw [List.getElem?_eraseIdx, if_neg (by omega), Nat.sub_add_cancel (by omega), hk]
  · rintro (rfl | rfl | hp)
    · exact List.mem_of_getElem? (hget hi)
    · exact List.mem_of_getElem? (hget (hj.trans hi))
    · exact List.mem_of_mem_eraseIdx (List.mem_of_mem_eraseIdx hp)

end Pairs

section Step

variable {conditions : List Pattern} {i j n m m' n' : Nat} {head left' right' : Pattern}
  {first second aux : List SplitRule} {last : SplitRule}

/-- The variables that are needed after two conditions were joined. -/
def neededVariables (head : Pattern) (conditions : List Pattern) (i j : Nat) : List String :=
  head.vars ++ (withoutPair conditions i j).flatMap Pattern.vars

/-- The variables of two conditions that are joined that are needed later. -/
def jointVariables (head : Pattern) (conditions : List Pattern) (i j : Nat) : List String :=
  (variableSet [conditions.getD i default, conditions.getD j default]).filter
    (· ∈ neededVariables head conditions i j)

/-- The variables to which two conditions that are joined are projected. -/
def retainedVariables (head : Pattern) (conditions : List Pattern) (i j : Nat) : List String :=
  joinVariables (conditions.getD i default) (conditions.getD j default)
    (neededVariables head conditions i j)

theorem mem_jointVariables {v : String} : v ∈ jointVariables head conditions i j ↔
    (v ∈ (conditions.getD i default).vars ∨ v ∈ (conditions.getD j default).vars) ∧
      v ∈ neededVariables head conditions i j := by
  simp [jointVariables, mem_variableSet]

variable (hj : j < i) (hi : i < conditions.length)
  (hbound : ∀ v ∈ head.vars, ∃ p ∈ conditions, v ∈ p.vars)
  (hl : Projects n m (retainedVariables head conditions i j) (conditions.getD i default) left'
    first)
  (hr : Projects m m' (retainedVariables head conditions i j) (conditions.getD j default) right'
    second)
include hj hi hl hr

theorem newRules_projections : NewRules n m' conditions (first ++ second) := by
  have hleft := (mem_of_pair hj hi).mpr (.inl rfl)
  have hright := (mem_of_pair hj hi).mpr (.inr (.inl rfl))
  have hfirst : NewRules n m conditions first :=
    { hl.toNewRules with
      bodies := fun x hx q hq => (hl.bodies x hx q hq).imp_left fun hq => by
        rwa [List.mem_singleton.mp hq] }
  refine hfirst.append hr.toNewRules fun q hq => .inl ?_
  rwa [List.mem_singleton.mp hq]

theorem source_projections : ∀ q ∈ [left', right'],
    q ∈ conditions ∨ ∃ y ∈ first ++ second, q = y.head := by
  intro q hq
  rcases List.mem_pair.mp hq with rfl | rfl
  · rcases hl.source with rfl | ⟨y, hy, he⟩
    · exact .inl ((mem_of_pair hj hi).mpr (.inl rfl))
    · exact .inr ⟨y, List.mem_append_left _ hy, he⟩
  · rcases hr.source with rfl | ⟨y, hy, he⟩
    · exact .inl ((mem_of_pair hj hi).mpr (.inr (.inl rfl)))
    · exact .inr ⟨y, List.mem_append_right _ hy, he⟩

/-- The projected conditions hold if the conditions do. -/
theorem complete_projections (hX : ∀ x ∈ first ++ second, x.toRule.Holds X)
    (hσ : ∀ q ∈ conditions, q.eval σ ∈ X) : ∀ q ∈ [left', right'], q.eval σ ∈ X := by
  intro q hq
  rcases List.mem_pair.mp hq with rfl | rfl
  · exact hl.complete X (fun x hx => hX x (List.mem_append_left _ hx)) σ
      (hσ _ ((mem_of_pair hj hi).mpr (.inl rfl)))
  · exact hr.complete X (fun x hx => hX x (List.mem_append_right _ hx)) σ
      (hσ _ ((mem_of_pair hj hi).mpr (.inr (.inl rfl))))

omit hj hi in
/-- If the joint projection holds, both conditions hold with the same values of what is needed
later. -/
theorem unfold_joint {X : Set GroundAtom} {τ : String → ObjectId}
    (hfirst : ∀ x ∈ first, Supports X x) (hsecond : ∀ x ∈ second, Supports X x)
    (hjoint : Supports X
      ⟨⟨[left', right'], .ofVars m' (jointVariables head conditions i j)⟩, .join⟩)
    (hτ : (Pattern.ofVars m' (jointVariables head conditions i j)).eval τ ∈ X) :
    ∃ τ', (∀ v ∈ neededVariables head conditions i j, τ' v = τ v) ∧
      (conditions.getD i default).eval τ' ∈ X ∧ (conditions.getD j default).eval τ' ∈ X := by
  -- the joint condition comes from values that may differ from `τ` elsewhere
  obtain ⟨ρ, hρ, hpair⟩ := hjoint _ hτ rfl
  obtain ⟨π, hπ, hsame⟩ := exists_merged_values (conditions.getD i default)
    (conditions.getD j default) ρ τ
  have hneeded : ∀ v ∈ neededVariables head conditions i j, π v = τ v := by
    intro v hv
    by_cases hvars : v ∈ (conditions.getD i default).vars ∨ v ∈ (conditions.getD j default).vars
    · rw [hπ v hvars]
      refine Pattern.eq_of_eval_eq hρ ?_
      rw [Pattern.vars_ofVars, mem_jointVariables]
      exact ⟨hvars, hv⟩
    · exact hsame v hvars
  have hleft : left'.eval π ∈ X := by
    rw [Pattern.eval_congr fun v hv => hπ v (.inl ((hl.vars v).mp hv).1)]
    exact hpair left' (by simp)
  have hright : right'.eval π ∈ X := by
    rw [Pattern.eval_congr fun v hv => hπ v (.inr ((hr.vars v).mp hv).1)]
    exact hpair right' (by simp)
  obtain ⟨τ', hτ', hi, hj⟩ := unfold_join hl hr hfirst hsecond hleft hright
  exact ⟨τ', fun v hv => (hτ' v hv).trans (hneeded v hv), hi, hj⟩

include hbound

theorem splits_last (hrest : withoutPair conditions i j = []) (hn : m' ≤ n') :
    Splits n n' ⟨conditions, head⟩ (first ++ second)
      ⟨⟨[left', right'], head⟩, .join⟩ := by
  have hnew := newRules_projections hj hi hl hr
  exact {
    hnew with
    le := hnew.le.trans hn
    range := fun x hx => ⟨(hnew.range x hx).1, (hnew.range x hx).2.trans_le hn⟩
    head := rfl
    last_proper := isProper_join hl hr fun v hv => by
      obtain ⟨p, hp, hvp⟩ := hbound v hv
      rw [mem_of_pair hj hi, hrest] at hp
      refine ⟨?_, List.mem_append_left _ hv⟩
      rcases hp with rfl | rfl | hp
      · exact .inl hvp
      · exact .inr hvp
      · exact absurd hp List.not_mem_nil
    last_body := source_projections hj hi hl hr
    complete := fun X hX hlast σ hσ => hlast σ (complete_projections hj hi hl hr hX hσ)
    unfold := fun X hX σ hσ => by
      obtain ⟨τ, hτ, hleft, hright⟩ := unfold_join hl hr
        (fun x hx => hX x (List.mem_append_left _ hx))
        (fun x hx => hX x (List.mem_append_right _ hx)) (hσ left' (by simp)) (hσ right' (by simp))
      refine ⟨τ, fun v hv => hτ v (List.mem_append_left _ hv), fun q hq => ?_⟩
      rcases (mem_of_pair hj hi).mp hq with rfl | rfl | hq
      · exact hleft
      · exact hright
      · rw [hrest] at hq
        exact absurd hq List.not_mem_nil }

omit hbound in
/-- Two conditions are replaced by their joint projection. -/
theorem splits_more
    (hmore : Splits (m' + 1) n' ⟨withoutPair conditions i j ++
      [.ofVars m' (jointVariables head conditions i j)], head⟩ aux last) :
    Splits n n' ⟨conditions, head⟩ (first ++ second ++
      [⟨⟨[left', right'], .ofVars m' (jointVariables head conditions i j)⟩, .join⟩] ++ aux)
      last := by
  have hjoint : ∀ v ∈ (Pattern.ofVars m' (jointVariables head conditions i j)).vars,
      (v ∈ (conditions.getD i default).vars ∨ v ∈ (conditions.getD j default).vars) ∧
        v ∈ neededVariables head conditions i j := fun v hv => by
    rwa [Pattern.vars_ofVars, mem_jointVariables] at hv
  have hnew : NewRules n (m' + 1) conditions (first ++ second ++
      [⟨⟨[left', right'], .ofVars m' (jointVariables head conditions i j)⟩, .join⟩]) := by
    refine (newRules_projections hj hi hl hr).append (.singleton
      ⟨Nat.le_refl _, Nat.lt_succ_self _⟩ (isProper_join hl hr hjoint)
      (nodup_vars_filter_variableSet _ _ _) (Pattern.object_notMem_ofVars _ _) fun q hq => hq)
      (source_projections hj hi hl hr)
  have hgiven : ∀ q ∈ withoutPair conditions i j ++
      [Pattern.ofVars m' (jointVariables head conditions i j)],
      q ∈ conditions ∨ ∃ y ∈ first ++ second ++ [(⟨⟨[left', right'], .ofVars m'
        (jointVariables head conditions i j)⟩, .join⟩ : SplitRule)], q = y.head := by
    intro q hq
    rcases List.mem_append.mp hq with hq | hq
    · exact .inl ((mem_of_pair hj hi).mpr (.inr (.inr hq)))
    · exact .inr ⟨_, List.mem_append_right _ (List.mem_singleton_self _),
        List.mem_singleton.mp hq⟩
  exact {
    hnew.append hmore.toNewRules hgiven with
    head := hmore.head
    last_proper := hmore.last_proper
    last_body := fun q hq => by
      rcases hmore.last_body q hq with hq | ⟨y, hy, he⟩
      · refine (hgiven q hq).imp_right fun ⟨y, hy, he⟩ => ⟨y, List.mem_append_left _ hy, he⟩
      · exact .inr ⟨y, List.mem_append_right _ hy, he⟩
    complete := fun X hX hlast σ hσ => by
      refine hmore.complete X (fun x hx => hX x (List.mem_append_right _ hx)) hlast σ fun q hq => ?_
      rcases List.mem_append.mp hq with hq | hq
      · exact hσ q ((mem_of_pair hj hi).mpr (.inr (.inr hq)))
      · rw [List.mem_singleton.mp hq]
        exact hX _ (List.mem_append_left _ (List.mem_append_right _ (List.mem_singleton_self _))) σ
          (complete_projections hj hi hl hr (fun x hx => hX x (List.mem_append_left _
            (List.mem_append_left _ hx))) hσ)
    unfold := fun X hX σ hσ => by
      obtain ⟨τ, hτ, hbody⟩ := hmore.unfold X (fun x hx => hX x (List.mem_append_right _ hx)) σ hσ
      obtain ⟨τ', hneeded, hleft, hright⟩ := unfold_joint hl hr
        (fun x hx => hX x (List.mem_append_left _ (List.mem_append_left _
          (List.mem_append_left _ hx))))
        (fun x hx => hX x (List.mem_append_left _ (List.mem_append_left _
          (List.mem_append_right _ hx))))
        (hX _ (List.mem_append_left _ (List.mem_append_right _ (List.mem_singleton_self _))))
        (hbody _ (List.mem_append_right _ (List.mem_singleton_self _)))
      refine ⟨τ', fun v hv => (hneeded v (List.mem_append_left _ hv)).trans (hτ v hv),
        fun q hq => ?_⟩
      rcases (mem_of_pair hj hi).mp hq with rfl | rfl | hq
      · exact hleft
      · exact hright
      · rw [Pattern.eval_congr fun v hv => hneeded v (List.mem_append_right _
          (List.mem_flatMap.mpr ⟨q, hq, hv⟩))]
        exact hbody q (List.mem_append_left _ hq) }

end Step

theorem joinAll_eq {head : Pattern} {conditions : List Pattern} {i j : Nat}
    (h : cheapestPair? conditions = some (i, j)) :
    joinAll head conditions = (do
      let l ← projectTo (retainedVariables head conditions i j) (conditions.getD i default)
      let r ← projectTo (retainedVariables head conditions i j) (conditions.getD j default)
      let joint ← freshPattern (jointVariables head conditions i j)
      if (withoutPair conditions i j).isEmpty then
        return l.2 ++ r.2 ++ [⟨⟨[l.1, r.1], head⟩, .join⟩]
      else if (withoutPair conditions i j).length + 1 < conditions.length then
        let later ← joinAll head (withoutPair conditions i j ++ [joint])
        return l.2 ++ r.2 ++ [⟨⟨[l.1, r.1], joint⟩, .join⟩] ++ later
      else return []) := by
  rw [joinAll, h]
  rfl

theorem joinAll_run {head : Pattern} {conditions : List Pattern} {s : SplitState}
    (h : s.IsFresh) (hlen : 2 ≤ conditions.length)
    (hbound : ∀ v ∈ head.vars, ∃ p ∈ conditions, v ∈ p.vars) :
    ∃ s' aux last, (joinAll head conditions).run s = (aux ++ [last], s') ∧ s.Extends s' ∧
      Splits s.count s'.count ⟨conditions, head⟩ aux last := by
  induction hn : conditions.length using Nat.strongRecOn generalizing conditions s with
  | ind n ih =>
    obtain ⟨i, j, hpair, hj, hi⟩ := exists_cheapestPair hlen
    obtain ⟨s₁, left', first, hrun₁, hs₁, hl⟩ := projectTo_run h
      (retainedVariables head conditions i j) (p := conditions.getD i default)
    obtain ⟨s₂, right', second, hrun₂, hs₂, hr⟩ := projectTo_run (hs₁.isFresh h)
      (retainedVariables head conditions i j) (p := conditions.getD j default)
    have hs₂ := hs₁.trans hs₂
    have hrun₃ := freshPattern_run (hs₂.isFresh h) (jointVariables head conditions i j)
    have hs₃ := hs₂.trans s₂.extends_next
    have hlength := length_withoutPair hj hi
    rw [joinAll_eq hpair, run_bind_of_run hrun₁, run_bind_of_run hrun₂, run_bind_of_run hrun₃]
    by_cases hrest : withoutPair conditions i j = []
    · refine ⟨s₂.next, first ++ second, ⟨⟨[left', right'], head⟩, .join⟩, ?_, hs₃,
        splits_last hj hi hbound hl hr hrest (SplitState.count_next ▸ Nat.le_succ _)⟩
      rw [if_pos (List.isEmpty_iff.mpr hrest)]
      rfl
    · have hpos := List.length_pos_iff.mpr hrest
      have hbound' : ∀ v ∈ head.vars, ∃ p ∈ withoutPair conditions i j ++
          [Pattern.ofVars s₂.count (jointVariables head conditions i j)], v ∈ p.vars := by
        intro v hv
        obtain ⟨p, hp, hvp⟩ := hbound v hv
        by_cases hvars : v ∈ (conditions.getD i default).vars ∨ v ∈ (conditions.getD j default).vars
        · refine ⟨_, List.mem_append_right _ (List.mem_singleton_self _), ?_⟩
          rw [Pattern.vars_ofVars]
          exact mem_jointVariables.mpr ⟨hvars, List.mem_append_left _ hv⟩
        · refine ⟨p, List.mem_append_left _ ?_, hvp⟩
          rcases (mem_of_pair hj hi).mp hp with rfl | rfl | hp
          · exact absurd (.inl hvp) hvars
          · exact absurd (.inr hvp) hvars
          · exact hp
      have hlen' : (withoutPair conditions i j ++ [Pattern.ofVars s₂.count
          (jointVariables head conditions i j)]).length + 1 = conditions.length := by
        rw [List.length_append]
        exact hlength
      obtain ⟨s', aux, last, hrun, hs', hmore⟩ := ih _ (by omega) (hs₃.isFresh h)
        (by omega) hbound' rfl
      refine ⟨s', first ++ second ++ [⟨⟨[left', right'], .ofVars s₂.count
        (jointVariables head conditions i j)⟩, .join⟩] ++ aux, last, ?_, hs₃.trans hs',
        splits_more hj hi hl hr (SplitState.count_next ▸ hmore)⟩
      rw [if_neg (by simpa using hrest), if_pos (by omega), run_bind_of_run hrun]
      exact congrArg (·, s') (List.append_assoc _ _ _).symm

/-- A rule that is a single rule of its kind already. -/
theorem splits_self {r : Rule} {last : SplitRule} {n : Nat} (hlast : last.toRule = r)
    (hproper : last.IsProper) : Splits n n r [] last where
  toNewRules := .nil (Nat.le_refl n) _
  head := by rw [hlast]
  last_proper := hproper
  last_body q hq := .inl (hlast ▸ hq)
  complete X _ h := hlast ▸ h
  unfold X _ σ h := ⟨σ, fun _ _ => rfl, hlast ▸ h⟩

theorem Splits.congr {n n' : Nat} {r r' : Rule} {aux : List SplitRule} {last : SplitRule}
    (h : Splits n n' r aux last) (hhead : r'.head = r.head)
    (hbody : ∀ p, p ∈ r'.body ↔ p ∈ r.body) : Splits n n' r' aux last where
  le := h.le
  nodup := h.nodup
  range := h.range
  proper := h.proper
  distinct := h.distinct
  objects := h.objects
  bodies x hx q hq := (h.bodies x hx q hq).imp_left (hbody q).mpr
  head := h.head.trans hhead.symm
  last_proper := h.last_proper
  last_body q hq := (h.last_body q hq).imp_left (hbody q).mpr
  complete X hX hlast σ hσ := by
    rw [hhead]
    exact h.complete X hX hlast σ fun q hq => hσ q ((hbody q).mpr hq)
  unfold X hX σ hσ := by
    rw [hhead]
    obtain ⟨τ, hτ, hall⟩ := h.unfold X hX σ hσ
    exact ⟨τ, hτ, fun q hq => hall q ((hbody q).mp hq)⟩

theorem splitConnected_run (head : Pattern) {body : List Pattern} {s : SplitState}
    (h : s.IsFresh) (hne : body ≠ []) (hbound : ∀ v ∈ head.vars, ∃ p ∈ body, v ∈ p.vars) :
    ∃ s' aux last, (splitConnected head body).run s = (aux ++ [last], s') ∧ s.Extends s' ∧
      Splits s.count s'.count ⟨body, head⟩ aux last := by
  rw [splitConnected]
  by_cases hlen : body.length ≤ 1
  · rw [if_pos hlen]
    refine ⟨s, [], ⟨⟨body, head⟩, .project⟩, rfl, .refl s, splits_self rfl ?_⟩
    exact ⟨Nat.le_antisymm hlen (List.length_pos_iff.mpr hne), hbound⟩
  · rw [if_neg hlen]
    exact joinAll_run h (Nat.lt_of_not_le hlen) hbound

/-- The rule with a new head is itself a rule for a new relation. -/
theorem Splits.newRules {n n' : Nat} {r : Rule} {aux : List SplitRule} {last : SplitRule}
    (h : Splits (n + 1) n' r aux last) (hhead : last.head.relation.index = n)
    (hdistinct : last.head.vars.Nodup) (hobjects : ∀ o, Term.object o ∉ last.head.args) :
    NewRules n n' r.body (aux ++ [last]) where
  le := (Nat.le_succ n).trans h.le
  nodup := by
    rw [List.map_append]
    refine List.nodup_append.mpr ⟨h.nodup, List.nodup_singleton _, fun a ha b hb he => ?_⟩
    obtain ⟨x, hx, rfl⟩ := List.mem_map.mp ha
    obtain rfl := List.mem_singleton.mp hb
    have hlt := (h.range x hx).1
    have he : x.head.relation = last.head.relation := he
    rw [he, hhead] at hlt
    omega
  range x hx := by
    have := h.le
    rcases List.mem_append.mp hx with hx | hx
    · have := h.range x hx
      omega
    · rw [List.mem_singleton.mp hx]
      omega
  proper x hx := (List.mem_append.mp hx).elim (h.proper x)
    fun hx => List.mem_singleton.mp hx ▸ h.last_proper
  distinct x hx := (List.mem_append.mp hx).elim (h.distinct x)
    fun hx => List.mem_singleton.mp hx ▸ hdistinct
  objects x hx := (List.mem_append.mp hx).elim (h.objects x)
    fun hx => List.mem_singleton.mp hx ▸ hobjects
  bodies x hx q hq := by
    have hleft : (q ∈ r.body ∨ ∃ y ∈ aux, q = y.head) →
        q ∈ r.body ∨ ∃ y ∈ aux ++ [last], q = y.head :=
      Or.imp_right fun ⟨y, hy, he⟩ => ⟨y, List.mem_append_left _ hy, he⟩
    rcases List.mem_append.mp hx with hx | hx
    · exact hleft (h.bodies x hx q hq)
    · rw [List.mem_singleton.mp hx] at hq
      exact hleft (h.last_body q hq)

/-- A group of conditions and its projection to the variables of the head. -/
structure IsPart (head : Pattern) (body : List Pattern) (part : Pattern × List SplitRule) :
    Prop where
  source : ∃ y ∈ part.2, part.1 = y.head
  vars : ∀ v, v ∈ part.1.vars ↔ (∃ p ∈ body, v ∈ p.vars) ∧ v ∈ head.vars
  complete : ∀ X, (∀ x ∈ part.2, x.toRule.Holds X) → ∀ σ, (∀ p ∈ body, p.eval σ ∈ X) →
    part.1.eval σ ∈ X
  unfold : ∀ X, (∀ x ∈ part.2, Supports X x) → ∀ σ, part.1.eval σ ∈ X →
    ∃ τ, (∀ v ∈ part.1.vars, τ v = σ v) ∧ ∀ p ∈ body, p.eval τ ∈ X

/-- The projection of a group of conditions, with its rules. -/
def splitPart (head : Pattern) (body : List Pattern) :
    Splitting (Pattern × List SplitRule) := do
  let projected ← freshPattern ((variableSet body).filter (· ∈ head.vars))
  return (projected, ← splitConnected projected body)

theorem splitPart_run (head : Pattern) {body : List Pattern} {s : SplitState}
    (h : s.IsFresh) (hne : body ≠ []) :
    ∃ s' part, (splitPart head body).run s = (part, s') ∧ s.Extends s' ∧
      NewRules s.count s'.count body part.2 ∧ IsPart head body part := by
  have hvars : ∀ v, v ∈ (variableSet body).filter (· ∈ head.vars) ↔
      (∃ p ∈ body, v ∈ p.vars) ∧ v ∈ head.vars := fun v => by simp [mem_variableSet]
  have hfresh := freshPattern_run h ((variableSet body).filter (· ∈ head.vars))
  obtain ⟨s', aux, last, hrun, hs', hsplit⟩ := splitConnected_run
    (.ofVars s.count ((variableSet body).filter (· ∈ head.vars))) (s.extends_next.isFresh h)
      hne fun v hv => by
        rw [Pattern.vars_ofVars] at hv
        exact ((hvars v).mp hv).1
  have hrun' : (splitPart head body).run s = ((.ofVars s.count ((variableSet body).filter
      (· ∈ head.vars)), aux ++ [last]), s') := by
    rw [splitPart, run_bind_of_run hfresh, run_bind_of_run hrun]
    rfl
  rw [SplitState.count_next] at hsplit
  have hlast : last.head.relation.index = s.count := by
    rw [hsplit.head]
    rfl
  refine ⟨s', _, hrun', s.extends_next.trans hs', hsplit.newRules hlast ?_ ?_, ?_⟩
  · rw [hsplit.head]
    exact nodup_vars_filter_variableSet _ _ _
  · rw [hsplit.head]
    exact Pattern.object_notMem_ofVars _ _
  · exact {
      source := ⟨last, List.mem_append_right _ (List.mem_singleton_self _), hsplit.head.symm⟩
      vars := fun v => by rw [Pattern.vars_ofVars, hvars]
      complete := fun X hX σ hσ => hsplit.complete X
        (fun x hx => hX x (List.mem_append_left _ hx))
        (hX last (List.mem_append_right _ (List.mem_singleton_self _))) σ hσ
      unfold := fun X hX σ hσ => by
        obtain ⟨ρ, hρ, hbody⟩ := hX last (List.mem_append_right _ (List.mem_singleton_self _)) _ hσ
          (congrArg Pattern.relation hsplit.head.symm)
        obtain ⟨τ, hτ, hall⟩ := hsplit.unfold X (fun x hx => hX x (List.mem_append_left _ hx)) ρ
          hbody
        rw [hsplit.head] at hρ
        exact ⟨τ, fun v hv => (hτ v hv).trans (Pattern.eq_of_eval_eq hρ hv), hall⟩ }

theorem mapM_splitPart_run (head : Pattern) (bodies : List (List Pattern)) {s : SplitState}
    (h : s.IsFresh) (hne : ∀ body ∈ bodies, body ≠ []) :
    ∃ s' parts, (bodies.mapM (splitPart head)).run s = (parts, s') ∧ s.Extends s' ∧
      NewRules s.count s'.count bodies.flatten (parts.flatMap (·.2)) ∧
      List.Forall₂ (IsPart head) bodies parts := by
  induction bodies generalizing s with
  | nil => exact ⟨s, [], rfl, .refl s, .nil (Nat.le_refl _) _, .nil⟩
  | cons body bodies ih =>
      rw [List.forall_mem_cons] at hne
      obtain ⟨s₁, part, hrun₁, hs₁, hnew, hpart⟩ := splitPart_run head h hne.1
      obtain ⟨s', parts, hrun, hs', hmore, hparts⟩ := ih (hs₁.isFresh h) hne.2
      refine ⟨s', part :: parts, ?_, hs₁.trans hs', ?_, .cons hpart hparts⟩
      · rw [List.mapM_cons, run_bind_of_run hrun₁, run_bind_of_run hrun]
        rfl
      · rw [List.flatten_cons, List.flatMap_cons]
        have hnew : NewRules s.count s₁.count (body ++ bodies.flatten) part.2 :=
          { hnew with
            bodies := fun x hx q hq =>
              (hnew.bodies x hx q hq).imp_left (List.mem_append_left _) }
        exact hnew.append hmore fun q hq => .inl (List.mem_append_right _ hq)

/-- Values for groups of conditions without common variables are put together. -/
theorem exists_values_of_parts (head : Pattern) {bodies : List (List Pattern)}
    (hapart : bodies.Pairwise fun body body' =>
      ∀ p ∈ body, ∀ q ∈ body', ∀ v ∈ p.vars, v ∉ q.vars)
    (h : ∀ body ∈ bodies, ∃ τ : String → ObjectId,
      (∀ v ∈ head.vars, (∃ p ∈ body, v ∈ p.vars) → τ v = σ v) ∧ ∀ p ∈ body, p.eval τ ∈ X) :
    ∃ τ, (∀ v, v ∈ head.vars ∨ (∀ body ∈ bodies, ∀ p ∈ body, v ∉ p.vars) → τ v = σ v) ∧
      ∀ body ∈ bodies, ∀ p ∈ body, p.eval τ ∈ X := by
  induction bodies with
  | nil => exact ⟨σ, fun _ _ => rfl, fun _ h => absurd h List.not_mem_nil⟩
  | cons body bodies ih =>
      rw [List.forall_mem_cons] at h
      rw [List.pairwise_cons] at hapart
      obtain ⟨τ, hτ, hrest⟩ := ih hapart.2 h.2
      obtain ⟨ρ, hρ, hbody⟩ := h.1
      refine ⟨fun v => if ∃ p ∈ body, v ∈ p.vars then ρ v else τ v, fun v hv => ?_,
        List.forall_mem_cons.mpr ⟨fun p hp => ?_, fun body' hbody' q hq => ?_⟩⟩
      · rcases hv with hv | hv
        · by_cases hvb : ∃ p ∈ body, v ∈ p.vars
          · exact (if_pos hvb).trans (hρ v hv hvb)
          · exact (if_neg hvb).trans (hτ v (.inl hv))
        · rw [List.forall_mem_cons] at hv
          have hvb : ¬ ∃ p ∈ body, v ∈ p.vars := fun ⟨p, hp, hvp⟩ => hv.1 p hp hvp
          exact (if_neg hvb).trans (hτ v (.inr hv.2))
      · rw [Pattern.eval_congr (τ := ρ) fun v hv => if_pos ⟨p, hp, hv⟩]
        exact hbody p hp
      · rw [Pattern.eval_congr (τ := τ) fun v hv => if_neg fun ⟨p, hp, hvp⟩ =>
          hapart.1 body' hbody' p hp q hq v hvp hv]
        exact hrest body' hbody' q hq

theorem mem_filter_components {body : List Pattern} :
    p ∈ body ↔ (∃ c ∈ components (body.filter Pattern.hasVariables), p ∈ c) ∨
      p ∈ body.filter (!·.hasVariables) := by
  rw [← List.mem_flatten, mem_components, List.mem_filter, List.mem_filter]
  cases p.hasVariables <;> simp

theorem vars_eq_nil_of_not_hasVariables (h : p.hasVariables = false) : p.vars = [] := by
  simpa [Pattern.hasVariables] using h

section Product

variable {r : Rule} {n n' : Nat} {parts : List (Pattern × List SplitRule)}

theorem pairwise_of_forall₂ {α β : Type} {R : α → β → Prop} {S : α → α → Prop} {T : β → β → Prop}
    {as : List α} {bs : List β} (h : List.Forall₂ R as bs) (ha : as.Pairwise S)
    (hT : ∀ a a' b b', R a b → R a' b' → S a a' → T b b') : bs.Pairwise T := by
  induction h with
  | nil => exact .nil
  | @cons a b as bs hr hrs ih =>
      rw [List.pairwise_cons] at ha
      refine .cons (fun b' hb' => ?_) (ih ha.2)
      obtain ⟨a', ha', hr'⟩ := exists_of_mem_forall₂_right hrs hb'
      exact hT a a' b b' hr hr' (ha.1 a' ha')

/-- The kind of a rule whose conditions have no variable in common. -/
def kindOfApart (body : List Pattern) : RuleKind :=
  if 2 ≤ body.length then .product else .project

theorem fitsKind_kindOfApart {body : List Pattern} (head : Pattern) (hne : body ≠ [])
    (hapart : body.Pairwise fun p q => ∀ v ∈ p.vars, v ∉ q.vars) :
    (⟨⟨body, head⟩, kindOfApart body⟩ : SplitRule).FitsKind := by
  rw [kindOfApart]
  split
  next hlength => exact ⟨hlength, hapart⟩
  next hlength =>
    exact Nat.le_antisymm (Nat.le_of_lt_succ (Nat.lt_of_not_le hlength))
      (List.length_pos_iff.mpr hne)

/-- A projection of each group of conditions, and the conditions without variables. -/
def combinedParts (r : Rule) (parts : List (Pattern × List SplitRule)) : List Pattern :=
  parts.map (·.1) ++ r.body.filter (!·.hasVariables)

theorem isProper_product (hne : r.body ≠ [])
    (hbound : ∀ v ∈ r.head.vars, ∃ p ∈ r.body, v ∈ p.vars)
    (hparts : List.Forall₂ (IsPart r.head) (components (r.body.filter Pattern.hasVariables))
      parts) :
    (⟨⟨combinedParts r parts, r.head⟩, kindOfApart (combinedParts r parts)⟩ :
      SplitRule).IsProper := by
  have htrivial : ∀ p ∈ r.body.filter (!·.hasVariables), p.vars = [] := fun p hp =>
    vars_eq_nil_of_not_hasVariables (by simpa using (List.mem_filter.mp hp).2)
  have hpart : ∀ c ∈ components (r.body.filter Pattern.hasVariables),
      ∃ part ∈ parts, IsPart r.head c part := fun c hc => exists_of_mem_forall₂ hparts hc
  refine ⟨fitsKind_kindOfApart _ ?_ ?_, ?_⟩
  · obtain ⟨p, hp⟩ := List.exists_mem_of_ne_nil _ hne
    rcases mem_filter_components.mp hp with ⟨c, hc, -⟩ | hp
    · obtain ⟨part, hmem, -⟩ := hpart c hc
      exact List.ne_nil_of_mem (List.mem_append_left _ (List.mem_map_of_mem hmem))
    · exact List.ne_nil_of_mem (List.mem_append_right _ hp)
  · refine List.pairwise_append.mpr ⟨List.pairwise_map.mpr ?_, ?_, ?_⟩
    · refine pairwise_of_forall₂ hparts pairwise_components
        fun c c' part part' hc hc' hapart v hv hv' => ?_
      obtain ⟨⟨p, hp, hvp⟩, -⟩ := (hc.vars v).mp hv
      obtain ⟨⟨q, hq, hvq⟩, -⟩ := (hc'.vars v).mp hv'
      exact hapart p hp q hq v hvp hvq
    · refine List.pairwise_of_forall_mem_list fun p hp q _ v hv => ?_
      rw [htrivial p hp] at hv
      exact absurd hv List.not_mem_nil
    · intro p _ q hq v _ hv
      rw [htrivial q hq] at hv
      exact absurd hv List.not_mem_nil
  · intro v hv
    obtain ⟨p, hp, hvp⟩ := hbound v hv
    rcases mem_filter_components.mp hp with ⟨c, hc, hpc⟩ | hp
    · obtain ⟨part, hmem, hpart⟩ := hpart c hc
      exact ⟨part.1, List.mem_append_left _ (List.mem_map_of_mem hmem),
        (hpart.vars v).mpr ⟨⟨p, hpc, hvp⟩, hv⟩⟩
    · rw [htrivial p hp] at hvp
      exact absurd hvp List.not_mem_nil

/-- A rule that combines the projections of its groups of conditions. -/
theorem splits_product (hne : r.body ≠ []) (hbound : ∀ v ∈ r.head.vars, ∃ p ∈ r.body, v ∈ p.vars)
    (hnew : NewRules n n' (components (r.body.filter Pattern.hasVariables)).flatten
      (parts.flatMap (·.2)))
    (hparts : List.Forall₂ (IsPart r.head) (components (r.body.filter Pattern.hasVariables))
      parts) :
    Splits n n' r (parts.flatMap (·.2))
      ⟨⟨combinedParts r parts, r.head⟩, kindOfApart (combinedParts r parts)⟩ := by
  have hbody : ∀ p, p ∈ r.body ↔ (∃ c ∈ components (r.body.filter Pattern.hasVariables), p ∈ c) ∨
      p ∈ r.body.filter (!·.hasVariables) := fun p => mem_filter_components
  have htrivial : ∀ p ∈ r.body.filter (!·.hasVariables), p.vars = [] := fun p hp =>
    vars_eq_nil_of_not_hasVariables (by simpa using (List.mem_filter.mp hp).2)
  exact {
    hnew with
    bodies := fun x hx q hq => (hnew.bodies x hx q hq).imp_left fun hq =>
      (hbody q).mpr (.inl (List.mem_flatten.mp hq))
    head := rfl
    last_proper := isProper_product hne hbound hparts
    last_body := fun q hq => by
      rcases List.mem_append.mp hq with hq | hq
      · obtain ⟨part, hpart, rfl⟩ := List.mem_map.mp hq
        obtain ⟨c, -, hc⟩ := exists_of_mem_forall₂_right hparts hpart
        obtain ⟨y, hy, he⟩ := hc.source
        exact .inr ⟨y, List.mem_flatMap.mpr ⟨part, hpart, hy⟩, he⟩
      · exact .inl (List.mem_of_mem_filter hq)
    complete := fun X hX hlast σ hσ => by
      refine hlast σ fun q hq => ?_
      rcases List.mem_append.mp hq with hq | hq
      · obtain ⟨part, hpart, rfl⟩ := List.mem_map.mp hq
        obtain ⟨c, hc, hpc⟩ := exists_of_mem_forall₂_right hparts hpart
        exact hpc.complete X (fun x hx => hX x (List.mem_flatMap.mpr ⟨part, hpart, hx⟩)) σ
          fun p hp => hσ p ((hbody p).mpr (.inl ⟨c, hc, hp⟩))
      · exact hσ q (List.mem_of_mem_filter hq)
    unfold := fun X hX σ hσ => by
      obtain ⟨τ, hτ, hall⟩ := exists_values_of_parts (σ := σ) (X := X) r.head
        (@pairwise_components (r.body.filter Pattern.hasVariables)) fun c hc => by
          obtain ⟨part, hpart, hpc⟩ := exists_of_mem_forall₂ hparts hc
          obtain ⟨τ, hτ, hc⟩ := hpc.unfold X
            (fun x hx => hX x (List.mem_flatMap.mpr ⟨part, hpart, hx⟩)) σ
            (hσ _ (List.mem_append_left _ (List.mem_map_of_mem hpart)))
          exact ⟨τ, fun v hv hvc => hτ v ((hpc.vars v).mpr ⟨hvc, hv⟩), hc⟩
      refine ⟨τ, fun v hv => hτ v (.inl hv), fun q hq => ?_⟩
      rcases (hbody q).mp hq with ⟨c, hc, hqc⟩ | hq
      · exact hall c hc q hqc
      · rw [Pattern.eval_congr (τ := σ) fun v hv => absurd hv (htrivial q hq ▸ List.not_mem_nil)]
        exact hσ q (List.mem_append_right _ hq) }

end Product

theorem splitRule_run {r : Rule} {s : SplitState} (h : s.IsFresh) (hne : r.body ≠ [])
    (hbound : ∀ v ∈ r.head.vars, ∃ p ∈ r.body, v ∈ p.vars) :
    ∃ s' aux last, (splitRule r).run s = (aux ++ [last], s') ∧ s.Extends s' ∧
      Splits s.count s'.count r aux last := by
  rw [splitRule]
  simp only
  split
  next body hcomponents htrivial =>
    have hbody : ∀ p, p ∈ r.body ↔ p ∈ body := fun p => by
      rw [mem_filter_components, hcomponents, htrivial]
      simp
    obtain ⟨s', aux, last, hrun, hs', hsplit⟩ := splitConnected_run r.head h
      (ne_nil_of_mem_components (hcomponents ▸ List.mem_singleton_self body))
      fun v hv => by
        obtain ⟨p, hp, hvp⟩ := hbound v hv
        exact ⟨p, (hbody p).mp hp, hvp⟩
    exact ⟨s', aux, last, hrun, hs', hsplit.congr rfl hbody⟩
  next =>
    obtain ⟨s', parts, hrun, hs', hnew, hparts⟩ := mapM_splitPart_run r.head
      (components (r.body.filter Pattern.hasVariables)) h
      fun c hc => ne_nil_of_mem_components hc
    exact ⟨s', _, _, run_bind_of_run hrun, hs', splits_product hne hbound hnew hparts⟩

/-- Rules that were split, one after the other. -/
structure SplitsAll (n n' : Nat) (rules : List Rule) (aux parts : List SplitRule) : Prop
    extends NewRules n n' (rules.flatMap (·.body)) aux where
  sub : ∀ x ∈ aux, x ∈ parts
  of_mem : ∀ x ∈ parts, x ∈ aux ∨ ∃ r ∈ rules, IsLast r aux x
  exists_last : ∀ r ∈ rules, ∃ x ∈ parts, IsLast r aux x
  perm : ∃ lasts : List SplitRule, parts.Perm (aux ++ lasts) ∧
    ∀ x ∈ lasts, ∃ r ∈ rules, x.head = r.head

theorem SplitsAll.nil (n : Nat) : SplitsAll n n [] [] [] :=
  { NewRules.nil (Nat.le_refl n) _ with
    sub := fun _ hx => hx
    of_mem := fun _ hx => .inl hx
    exists_last := fun _ hr => absurd hr List.not_mem_nil
    perm := ⟨[], .nil, fun _ hx => absurd hx List.not_mem_nil⟩ }

/-- The rules from a rule are listed before those from the rules after it. -/
theorem SplitsAll.cons {n m n' : Nat} {r : Rule} {rules : List Rule}
    {aux aux' parts : List SplitRule} {last : SplitRule}
    (hsplit : Splits n m r aux last) (hmore : SplitsAll m n' rules aux' parts) :
    SplitsAll n n' (r :: rules) (aux ++ aux') (aux ++ [last] ++ parts) := by
  have hleft : ∀ x ∈ aux, x ∈ aux ++ aux' := fun _ => List.mem_append_left _
  have hright : ∀ x ∈ aux', x ∈ aux ++ aux' := fun _ => List.mem_append_right _
  have hlast := hsplit.toIsLast.mono hleft
  have hnew : NewRules n m ((r :: rules).flatMap (·.body)) aux :=
    { hsplit.toNewRules with
      bodies := fun x hx q hq => (hsplit.bodies x hx q hq).imp_left (List.mem_append_left _) }
  refine {
    hnew.append hmore.toNewRules (fun q hq => .inl (List.mem_append_right _ hq)) with
    sub := fun x hx => ?_
    of_mem := fun x hx => ?_
    exists_last := List.forall_mem_cons.mpr ⟨⟨last, ?_, hlast⟩, fun r' hr' => ?_⟩
    perm := ?_ }
  · rw [List.append_assoc]
    rcases List.mem_append.mp hx with hx | hx
    · exact List.mem_append_left _ hx
    · exact List.mem_append_right _ (List.mem_append_right _ (hmore.sub x hx))
  · rcases List.mem_append.mp hx with hx | hx
    · rcases List.mem_append.mp hx with hx | hx
      · exact .inl (hleft x hx)
      · exact .inr ⟨r, List.mem_cons_self, List.mem_singleton.mp hx ▸ hlast⟩
    · rcases hmore.of_mem x hx with hx | ⟨r', hr', hx⟩
      · exact .inl (hright x hx)
      · exact .inr ⟨r', List.mem_cons_of_mem _ hr', hx.mono hright⟩
  · exact List.mem_append_left _ (List.mem_append_right _ (List.mem_singleton_self _))
  · obtain ⟨x, hx, hlast⟩ := hmore.exists_last r' hr'
    exact ⟨x, List.mem_append_right _ hx, hlast.mono hright⟩
  · obtain ⟨lasts, hperm, hlasts⟩ := hmore.perm
    refine ⟨last :: lasts, ?_, List.forall_mem_cons.mpr
      ⟨⟨r, List.mem_cons_self, hlast.head⟩, fun x hx => ?_⟩⟩
    · rw [List.append_assoc, List.append_assoc]
      exact ((hperm.cons last).trans List.perm_middle.symm).append_left aux
    · obtain ⟨r', hr', he⟩ := hlasts x hx
      exact ⟨r', List.mem_cons_of_mem r hr', he⟩

theorem mapM_splitRule_run {rules : List Rule} {s : SplitState} (h : s.IsFresh)
    (hne : ∀ r ∈ rules, r.body ≠ [])
    (hbound : ∀ r ∈ rules, ∀ v ∈ r.head.vars, ∃ p ∈ r.body, v ∈ p.vars) :
    ∃ s' parts aux, (rules.mapM splitRule).run s = (parts, s') ∧ s.Extends s' ∧
      SplitsAll s.count s'.count rules aux parts.flatten := by
  induction rules generalizing s with
  | nil => exact ⟨s, [], [], rfl, .refl s, .nil s.count⟩
  | cons r rules ih =>
      rw [List.forall_mem_cons] at hne hbound
      obtain ⟨s₁, aux, last, hrun₁, hs₁, hsplit⟩ := splitRule_run h hne.1 hbound.1
      obtain ⟨s', parts, aux', hrun, hs', hmore⟩ := ih (hs₁.isFresh h) hne.2 hbound.2
      refine ⟨s', (aux ++ [last]) :: parts, aux ++ aux', ?_, hs₁.trans hs', ?_⟩
      · rw [List.mapM_cons, run_bind_of_run hrun₁, run_bind_of_run hrun]
        rfl
      · rw [List.flatten_cons]
        exact .cons hsplit hmore

namespace SplitsAll

variable {n n' : Nat} {rules : List Rule} {aux parts : List SplitRule}
  {facts : Set GroundAtom}

theorem eq_of_relation_eq (h : SplitsAll n n' rules aux parts) {x y : SplitRule} (hx : x ∈ aux)
    (hy : y ∈ aux) (he : x.head.relation = y.head.relation) : x = y :=
  List.inj_on_of_nodup_map h.nodup hx hy he

theorem subset_meaning (h : SplitsAll n n' rules aux parts) :
    leastModel facts {r | r ∈ rules} ⊆ leastModel facts {r | ∃ x ∈ parts, x.toRule = r} := by
  refine leastModel_subset subset_leastModel fun r hr => ?_
  obtain ⟨x, hx, hlast⟩ := h.exists_last r hr
  exact hlast.complete _ (fun y hy => holds_leastModel ⟨y, h.sub y hy, rfl⟩)
    (holds_leastModel ⟨x, hx, rfl⟩)

theorem meaning_subset (h : SplitsAll n n' rules aux parts)
    (hfacts : ∀ a ∈ facts, a.relation.index < n)
    (hrules : ∀ r ∈ rules, ∀ q ∈ r.head :: r.body, q.relation.index < n) {a : GroundAtom}
    (ha : a ∈ leastModel facts {r | ∃ x ∈ parts, x.toRule = r}) (hbase : a.relation.index < n) :
    a ∈ leastModel facts {r | r ∈ rules} := by
  have hY : ∀ a ∈ leastModel facts {r | r ∈ rules}, a.relation.index < n := by
    intro a ha
    cases ha with
    | fact ha => exact hfacts a ha
    | rule hr σ _ => exact hrules _ hr _ List.mem_cons_self
  -- the least model of the original rules, with the atoms of the new relations
  generalize hX : leastModel (leastModel facts {r | r ∈ rules}) {r | ∃ x ∈ aux, x.toRule = r} = X
  have hXY : ∀ a ∈ X, a.relation.index < n → a ∈ leastModel facts {r | r ∈ rules} := by
    intro a ha hlt
    rw [← hX] at ha
    cases ha with
    | fact ha => exact ha
    | rule hr σ _ =>
        obtain ⟨x, hx, rfl⟩ := hr
        exact absurd (h.range x hx).1 (Nat.not_le_of_lt hlt)
  have hsupports : ∀ x ∈ aux, Supports X x := by
    intro x hx a ha hrelation
    rw [← hX] at ha
    cases ha with
    | fact ha =>
        have hlt := hY a ha
        rw [hrelation] at hlt
        exact absurd (h.range x hx).1 (Nat.not_le_of_lt hlt)
    | rule hr σ hbody =>
        obtain ⟨y, hy, rfl⟩ := hr
        obtain rfl := h.eq_of_relation_eq hy hx hrelation
        exact ⟨σ, rfl, hX ▸ hbody⟩
  refine hXY a ?_ hbase
  refine leastModel_subset (fun a ha => hX ▸ .fact (.fact ha)) ?_ ha
  rintro _ ⟨x, hx, rfl⟩
  rcases h.of_mem x hx with hx | ⟨r, hr, hlast⟩
  · exact hX ▸ holds_leastModel ⟨x, hx, rfl⟩
  · intro σ hσ
    obtain ⟨τ, hτ, hbody⟩ := hlast.unfold X hsupports σ hσ
    have hhead : r.head.eval τ ∈ leastModel facts {r | r ∈ rules} := holds_leastModel hr τ fun q hq =>
      hXY _ (hbody q hq) (hrules r hr q (List.mem_cons_of_mem _ hq))
    rw [hlast.head, ← Pattern.eval_congr hτ, ← hX]
    exact .fact hhead

end SplitsAll

end Datalog
end FinitePlanning
