import FinitePlanning.Proofs.Datalog.GreedyJoin
import FinitePlanning.Proofs.Datalog.Model
import FinitePlanning.Proofs.Datalog.Repetition
import FinitePlanning.Proofs.Exploration.Rules

/-!
Relations with a fixed number of arguments. Rules over them stay so when heads are guarded, repeated
variables are separated and rules are split, each new relation having as many arguments as the head
that defines it.
-/

namespace FinitePlanning
namespace Datalog

variable {T T' : SymbolTable} {arity : RelationId → Nat}

/-- An atom of a rule over the symbols of a table. -/
structure Pattern.IsTyped (T : SymbolTable) (arity : RelationId → Nat) (q : Pattern) : Prop where
  relation : q.relation.index < T.relations.length
  arity : q.args.length = arity q.relation
  objects : ∀ id, Term.object id ∈ q.args → id.index < T.objects.length

structure GroundAtom.IsTyped (T : SymbolTable) (arity : RelationId → Nat) (a : GroundAtom) :
    Prop where
  relation : a.relation.index < T.relations.length
  arity : a.args.length = arity a.relation
  objects : ∀ id ∈ a.args, id.index < T.objects.length

def Rule.IsTyped (T : SymbolTable) (arity : RelationId → Nat) (r : Rule) : Prop :=
  ∀ q ∈ r.head :: r.body, q.IsTyped T arity

/-- A program is typed if its facts and rules are. -/
theorem Program.isTyped_of_forall {p : Program} (hfacts : ∀ a ∈ p.facts, a.IsTyped p.symbols arity)
    (hrules : ∀ r ∈ p.rules, r.toRule.IsTyped p.symbols arity) : p.IsTyped arity where
  fact_relation a ha := (hfacts a ha).relation
  head_relation r hr := (hrules r hr _ List.mem_cons_self).relation
  fact_arity a ha := (hfacts a ha).arity
  rule_arity r hr q hq := (hrules r hr q hq).arity
  fact_objects a ha := (hfacts a ha).objects
  rule_objects r hr := (hrules r hr _ List.mem_cons_self).objects

theorem GroundAtom.IsTyped.extend {a : GroundAtom} (h : a.IsTyped T arity) (hT : T.Extends T') :
    a.IsTyped T' arity where
  relation := h.relation.trans_le hT.relations.length_le
  arity := h.arity
  objects o ho := (h.objects o ho).trans_le hT.objects.length_le

theorem Pattern.IsTyped.extend {q : Pattern} (h : q.IsTyped T arity) (hT : T.Extends T') :
    q.IsTyped T' arity where
  relation := h.relation.trans_le hT.relations.length_le
  arity := h.arity
  objects o ho := (h.objects o ho).trans_le hT.objects.length_le

section Guards

variable {object equal : RelationId} {r : Rule}

theorem isBound_guardHead : (Program.guardHead object r).IsBound := by
  intro v hv
  have hv : v ∈ r.head.vars := hv
  by_cases hbound : v ∈ r.body.flatMap Pattern.vars
  · obtain ⟨q, hq, hvq⟩ := List.mem_flatMap.mp hbound
    exact ⟨q, List.mem_append_left _ hq, hvq⟩
  · refine ⟨⟨object, [.variable v]⟩, List.mem_append_right _ (List.mem_map.mpr ⟨v, ?_, rfl⟩), ?_⟩
    · simpa [Program.unboundVariables, Condition.sortedNames, List.mem_mergeSort, hv] using hbound
    · simp [Pattern.vars, Term.variable?]

theorem guardHead_of_isBound (h : r.IsBound) : Program.guardHead object r = r := by
  have hnone : Program.unboundVariables r = [] := by
    rw [List.eq_nil_iff_forall_not_mem]
    intro v hv
    simp only [Program.unboundVariables, Condition.sortedNames, List.mem_mergeSort,
      List.mem_eraseDups, List.mem_filter, decide_eq_true_eq] at hv
    obtain ⟨q, hq, hvq⟩ := h v hv.1
    exact hv.2 (List.mem_flatMap.mpr ⟨q, hq, hvq⟩)
  rw [Program.guardHead, hnone]
  simp

theorem Rule.IsTyped.guardHead (h : r.IsTyped T arity) (hobject : object.index < T.relations.length)
    (harity : arity object = 1) : (Program.guardHead object r).IsTyped T arity := by
  intro q hq
  rcases List.mem_cons.mp hq with rfl | hq
  · exact h _ List.mem_cons_self
  · rcases List.mem_append.mp hq with hq | hq
    · exact h q (List.mem_cons_of_mem _ hq)
    · obtain ⟨v, -, rfl⟩ := List.mem_map.mp hq
      exact ⟨hobject, harity.symm, by simp⟩

theorem Rule.IsTyped.separateRepeated (h : r.IsTyped T arity)
    (hequal : equal.index < T.relations.length) (harity : arity equal = 2) :
    (Program.separateRepeated equal r).IsTyped T arity := by
  intro q hq
  rcases Program.exists_of_mem_separateRepeated hq with ⟨p, hp, renamed, hpq⟩ | ⟨x, rfl⟩
  · have hp := h p hp
    refine ⟨hpq.relation_eq ▸ hp.relation, ?_, fun id hid => hp.objects id (hpq.object_mem.mp hid)⟩
    rw [hpq.length_eq, hpq.relation_eq, hp.arity]
  · exact ⟨hequal, harity.symm, by simp [Program.equality]⟩

/-- The head of a rule without conditions. -/
theorem Rule.IsTyped.headFact (h : r.IsTyped T arity) (hbound : r.IsBound) (hbody : r.body = []) :
    (Program.headFact r).IsTyped T arity := by
  have hhead := h _ List.mem_cons_self
  have heval := Program.eval_head_of_isBound hbound hbody default
  rw [← heval]
  refine ⟨hhead.relation, (Pattern.length_evalArgs _ _).trans hhead.arity, fun o ho => ?_⟩
  obtain ⟨term, hterm, rfl⟩ := List.mem_map.mp ho
  cases term with
  | object id => exact hhead.objects id hterm
  | «variable» v =>
      obtain ⟨q, hq, -⟩ := hbound v (Pattern.mem_vars.mpr hterm)
      rw [hbody] at hq
      exact absurd hq List.not_mem_nil

end Guards

/-! ### Splitting -/

section Splitting

/-- The numbers of arguments when new relations are defined by rules. -/
def arityWith (arity : RelationId → Nat) (aux : List SplitRule) (id : RelationId) : Nat :=
  ((aux.find? (·.head.relation = id)).map (·.head.args.length)).getD (arity id)

variable {n n' : Nat} {rules : List Rule} {aux parts : List SplitRule}

theorem NewRules.arityWith_of_lt {given : List Pattern} (h : NewRules n n' given aux)
    {id : RelationId} (hid : id.index < n) : arityWith arity aux id = arity id := by
  have hnone : aux.find? (·.head.relation = id) = none := by
    refine List.find?_eq_none.mpr fun x hx he => ?_
    have hle := (h.range x hx).1
    rw [of_decide_eq_true he] at hle
    omega
  rw [arityWith, hnone]
  rfl

theorem NewRules.arityWith_head {given : List Pattern} (h : NewRules n n' given aux)
    {x : SplitRule} (hx : x ∈ aux) : arityWith arity aux x.head.relation = x.head.args.length := by
  have hsome : (aux.find? (·.head.relation = x.head.relation)).isSome := by
    rw [List.find?_isSome]
    exact ⟨x, hx, by simp⟩
  obtain ⟨y, hy⟩ := Option.isSome_iff_exists.mp hsome
  obtain rfl : y = x := List.inj_on_of_nodup_map h.nodup (List.mem_of_find?_eq_some hy) hx
    (by simpa using List.find?_some hy)
  rw [arityWith, hy]
  rfl

/-- Rules that are split are typed if the original ones are. -/
theorem SplitsAll.isTyped (h : SplitsAll T.relations.length T'.relations.length rules aux parts)
    (hT : T.Extends T') (hrules : ∀ r ∈ rules, r.IsTyped T arity) :
    ∀ x ∈ parts, x.toRule.IsTyped T' (arityWith arity aux) := by
  have hgiven : ∀ q : Pattern, q.IsTyped T arity → q.IsTyped T' (arityWith arity aux) := by
    intro q hq
    have hq' := hq.extend hT
    exact ⟨hq'.relation, hq.arity.trans (h.arityWith_of_lt hq.relation).symm, hq'.objects⟩
  have hhead : ∀ x ∈ aux, x.head.IsTyped T' (arityWith arity aux) := fun x hx =>
    ⟨(h.range x hx).2, (h.arityWith_head hx).symm, fun id hid => absurd hid (h.objects x hx id)⟩
  intro x hx q hq
  rcases h.of_mem x hx with hx | ⟨r, hr, hlast⟩
  · rcases List.mem_cons.mp hq with rfl | hq
    · exact hhead x hx
    · rcases h.bodies x hx q hq with hq | ⟨y, hy, rfl⟩
      · obtain ⟨r, hr, hq⟩ := List.mem_flatMap.mp hq
        exact hgiven q (hrules r hr q (List.mem_cons_of_mem _ hq))
      · exact hhead y hy
  · rcases List.mem_cons.mp hq with rfl | hq
    · exact hlast.head ▸ hgiven _ (hrules r hr _ List.mem_cons_self)
    · rcases hlast.last_body q hq with hq | ⟨y, hy, rfl⟩
      · exact hgiven q (hrules r hr q (List.mem_cons_of_mem _ hq))
      · exact hhead y hy

theorem SplitsAll.isProper (h : SplitsAll n n' rules aux parts) : ∀ x ∈ parts, x.IsProper := by
  intro x hx
  rcases h.of_mem x hx with hx | ⟨r, -, hlast⟩
  · exact h.proper x hx
  · exact hlast.last_proper

/-- A rule with a single condition is left as it is. -/
theorem splitRule_single {r : Rule} {q : Pattern} (hbody : r.body = [q]) (s : SplitState) :
    (splitRule r).run s = ([⟨r, .project⟩], s) := by
  obtain ⟨body, head⟩ := r
  obtain rfl : body = [q] := hbody
  cases hq : q.hasVariables with
  | true =>
      simp only [splitRule, components, splitConnected, List.filter, hq]
      rfl
  | false =>
      simp only [splitRule, components, List.filter, hq]
      rfl

theorem exists_mem_of_mapM_run {α β : Type} {f : α → Splitting β} {l : List α} {s s' : SplitState}
    {bs : List β} (h : (l.mapM f).run s = (bs, s')) {a : α} (ha : a ∈ l) :
    ∃ s₁, ((f a).run s₁).1 ∈ bs := by
  induction l generalizing s s' bs with
  | nil => exact absurd ha List.not_mem_nil
  | cons c l ih =>
      obtain ⟨b, s₁, hc⟩ : ∃ b s₁, (f c).run s = (b, s₁) := ⟨_, _, rfl⟩
      obtain ⟨rest, s₂, hl⟩ : ∃ rest s₂, (l.mapM f).run s₁ = (rest, s₂) := ⟨_, _, rfl⟩
      rw [List.mapM_cons, run_bind_of_run hc, run_bind_of_run hl] at h
      obtain rfl : b :: rest = bs := congrArg Prod.fst h
      rcases List.mem_cons.mp ha with rfl | ha
      · exact ⟨s, by simp [hc]⟩
      · obtain ⟨s₃, hs₃⟩ := ih hl ha
        exact ⟨s₃, List.mem_cons_of_mem _ hs₃⟩

/-- A table after some auxiliary relations were entered. -/
structure SymbolTable.AddsAuxiliary (T T' : SymbolTable) : Prop extends T.Extends T' where
  objects_eq : T'.objects = T.objects
  relations_nodup : T.relations.Nodup → T'.relations.Nodup
  of_mem : ∀ r ∈ T'.relations, r ∈ T.relations ∨ r.isAuxiliary = true

namespace SymbolTable

theorem relation_eq_getElem {id : RelationId} (h : id.index < T.relations.length) :
    T.relation id = T.relations[id.index] := by
  rw [relation, List.getD_eq_getElem?_getD, List.getElem?_eq_getElem h, Option.getD_some]

theorem AddsAuxiliary.relation_eq (h : T.AddsAuxiliary T') {id : RelationId}
    (hid : id.index < T.relations.length) : T'.relation id = T.relation id := by
  obtain ⟨rest, hrest⟩ := h.relations
  rw [relation, relation, ← hrest, List.getD_eq_getElem?_getD, List.getElem?_append_left hid,
    List.getD_eq_getElem?_getD]

/-- Relations that are not auxiliary were in the table before. -/
theorem AddsAuxiliary.index_lt (h : T.AddsAuxiliary T') (hn : T.relations.Nodup) {id : RelationId}
    (hid : id.index < T'.relations.length) (hr : (T'.relation id).isAuxiliary = false) :
    id.index < T.relations.length := by
  rw [relation_eq_getElem hid] at hr
  have hmem : T'.relations[id.index] ∈ T.relations := by
    refine (h.of_mem _ (List.getElem_mem hid)).resolve_right ?_
    rw [hr]
    exact Bool.false_ne_true
  obtain ⟨j, hj, he⟩ := List.mem_iff_getElem.mp hmem
  have hj' : j < T'.relations.length := hj.trans_le h.relations.length_le
  have hsame : T'.relations[j] = T'.relations[id.index] := by
    have hkept : T'.relation ⟨j⟩ = T.relation ⟨j⟩ := h.relation_eq hj
    rw [relation_eq_getElem hj', relation_eq_getElem hj] at hkept
    exact hkept.trans he
  obtain rfl := (List.Nodup.getElem_inj_iff (h.relations_nodup hn)).mp hsame
  exact hj

end SymbolTable

theorem SplitState.Extends.addsAuxiliary {s s' : SplitState} (h : s.Extends s') (hs : s.IsFresh) :
    s.symbols.AddsAuxiliary s'.symbols := by
  refine (h.induction (motive := fun s' => s'.IsFresh ∧ s.symbols.AddsAuxiliary s'.symbols)
    ⟨hs, ⟨.refl _, rfl, id, fun r hr => .inl hr⟩⟩ ?_).2
  rintro s₁ ⟨hfresh, hadds⟩
  refine ⟨hfresh.next, ⟨hadds.relations.trans (List.prefix_append _ _), hadds.objects⟩,
    hadds.objects_eq, fun hn => ?_, fun r hr => ?_⟩
  · change (s₁.symbols.relations ++ [Relation.auxiliary s₁.nextAuxiliary]).Nodup
    rw [← List.concat_eq_append]
    exact (hadds.relations_nodup hn).concat (hfresh _ (Nat.le_refl _))
  · rcases List.mem_append.mp hr with hr | hr
    · exact hadds.of_mem r hr
    · exact .inr (List.mem_singleton.mp hr ▸ rfl)

theorem splitRules_spec (hfresh : ∀ k, .auxiliary k ∉ T.relations) (hne : ∀ r ∈ rules, r.body ≠ [])
    (hbound : ∀ r ∈ rules, r.IsBound) :
    ∃ aux, SplitsAll T.relations.length (splitRules T rules).2.relations.length rules aux
        (splitRules T rules).1 ∧
      T.AddsAuxiliary (splitRules T rules).2 ∧
      ∀ r ∈ rules, ∀ q, r.body = [q] → ∃ x ∈ (splitRules T rules).1, x.toRule = r := by
  have hs : (⟨T, 0⟩ : SplitState).IsFresh := fun k _ => hfresh k
  obtain ⟨s', parts, aux, hrun, hs', hsplit⟩ := mapM_splitRule_run hs hne hbound
  have heq : splitRules T rules = (parts.flatten, s'.symbols) := by
    rw [splitRules_eq, splitAll]
    simp only [Id.run, hrun]
  rw [heq]
  refine ⟨aux, hsplit, hs'.addsAuxiliary hs, fun r hr q hbody => ?_⟩
  obtain ⟨s₁, hmem⟩ := exists_mem_of_mapM_run hrun hr
  rw [splitRule_single hbody] at hmem
  exact ⟨_, List.mem_flatten.mpr ⟨_, hmem, List.mem_singleton_self _⟩, rfl⟩

end Splitting
end Datalog
end FinitePlanning
