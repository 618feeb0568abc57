import FinitePlanning.Proofs.Datalog.Typing
import FinitePlanning.Proofs.Exploration.Rules
import FinitePlanning.Proofs.Invariant.Requirements

/-!
The grounding program of a task in normal form is typed. A relation takes as many arguments as its
predicate, or as its schema has parameters.
-/

namespace FinitePlanning

open Datalog

/-- The number of arguments of a relation of the grounding program. -/
def Task.relationArity (t : Task) : Relation → Nat
  | .predicate (.named name) => ((t.predicate? name).map (·.arity)).getD 0
  | .predicate (.type _) => 1
  | .predicate .equal => 2
  | .action i => (t.actions.getD i default).parameters.length
  | .derivation i => (t.axioms.getD i default).parameters.length
  | .auxiliary _ => 0
  | .object => 1
  | .goalReachable => 0

theorem Task.IsNormal.eq_relationArity {t : Task} (ht : t.IsNormal) {p : Predicate} {n : Nat}
    (h : t.HasArity p n) : n = t.relationArity (.predicate p) := by
  cases p with
  | type name => exact h
  | equal => exact h
  | named name =>
      cases hq : t.predicate? name with
      | none =>
          obtain ⟨q, hq', rfl, -⟩ := h
          have hne := List.find?_eq_none.mp hq q hq'
          simp at hne
      | some q =>
          have hname : q.name = name := by simpa using List.find?_some hq
          refine ht.arity_unique h ?_
          simp only [relationArity, hq, Option.map_some, Option.getD_some]
          exact ⟨q, List.mem_of_find?_eq_some hq, hname, rfl⟩

namespace Datalog

variable {t : Task} {T : SymbolTable}

/-- A relation with as many arguments as it takes. -/
def Mention.IsTyped (t : Task) (q : Mention) : Prop := q.2.length = t.relationArity q.1

theorem isTyped_mention (ht : t.IsNormal) {vars : List String} {a : Atom} (h : a.IsOver t vars) :
    Mention.IsTyped t (mention a) := ht.eq_relationArity h.arity

theorem isTyped_typeMentions (ps : List Parameter) :
    ∀ q ∈ typeMentions ps, Mention.IsTyped t q := by
  intro q hq
  obtain ⟨p, -, rfl⟩ := List.mem_map.mp hq
  rfl

theorem isTyped_positiveMentions (ht : t.IsNormal) {vars : List String} {c : Condition}
    (h : c.IsOver t vars) : ∀ q ∈ positiveMentions c, Mention.IsTyped t q := by
  intro q hq
  obtain ⟨l, hl, rfl⟩ := List.mem_map.mp hq
  exact isTyped_mention ht (h.literals l (List.mem_filter.mp hl).1)

theorem isTyped_applicabilityClause (ht : t.IsNormal) {r : Relation} (ps : List Parameter)
    {vars : List String} {c : Condition} (h : c.IsOver t vars) (hr : t.relationArity r = ps.length) :
    ∀ q ∈ (applicabilityClause r ps c).head :: (applicabilityClause r ps c).body,
      Mention.IsTyped t q := by
  intro q hq
  rcases List.mem_cons.mp hq with rfl | hq
  · exact (List.length_map _).trans hr.symm
  · exact (List.mem_append.mp hq).elim (isTyped_typeMentions ps q)
      (isTyped_positiveMentions ht h q)

/-- The clauses of a task, one kind after the other. -/
inductive IsClauseOf (t : Task) : Clause → Prop where
  | action {i : Nat} {a : Action} (ha : t.actions[i]? = some a) :
      IsClauseOf t (applicabilityClause (.action i) a.parameters a.precondition)
  | effect {i : Nat} {a : Action} (ha : t.actions[i]? = some a) {e : Effect} (he : e ∈ a.effects) :
      IsClauseOf t (effectClause (.action i, a.parameters.map (·.name)) e)
  | derivation {i : Nat} {x : Axiom} (hx : t.axioms[i]? = some x) :
      IsClauseOf t (applicabilityClause (.derivation i) x.parameters x.condition)
  | head {i : Nat} {x : Axiom} (hx : t.axioms[i]? = some x) :
      IsClauseOf t ⟨(.predicate (.named x.name), x.externalParameters.map (·.name)),
        [(.derivation i, x.parameters.map (·.name))]⟩
  | goal : IsClauseOf t ⟨(.goalReachable, []), positiveMentions t.goal⟩

theorem isClauseOf_of_mem {c : Clause} (hc : c ∈ clauses t) : IsClauseOf t c := by
  rcases List.mem_append.mp hc with hc | hc
  · rcases List.mem_append.mp hc with hc | hc
    · obtain ⟨cs, hcs, hc⟩ := List.mem_flatten.mp hc
      obtain ⟨⟨a, i⟩, ha, rfl⟩ := List.mem_map.mp hcs
      have ha := List.mem_zipIdx_iff_getElem?.mp ha
      rcases List.mem_cons.mp hc with rfl | hc
      · exact .action ha
      · obtain ⟨e, he, rfl⟩ := List.mem_map.mp hc
        exact .effect ha (List.mem_filter.mp he).1
    · obtain ⟨cs, hcs, hc⟩ := List.mem_flatten.mp hc
      obtain ⟨⟨x, i⟩, hx, rfl⟩ := List.mem_map.mp hcs
      have hx := List.mem_zipIdx_iff_getElem?.mp hx
      rcases List.mem_pair.mp hc with rfl | rfl
      · exact .derivation hx
      · exact .head hx
  · obtain rfl := List.mem_singleton.mp hc
    exact .goal

/-- The head of a clause is that of an action, an axiom, an effect or the goal. -/
theorem isTyped_clauses (ht : t.IsNormal) : ∀ c ∈ clauses t, ∀ q ∈ c.head :: c.body,
    Mention.IsTyped t q := by
  intro c hc q hq
  cases isClauseOf_of_mem hc with
  | @action i a ha =>
      exact isTyped_applicabilityClause ht a.parameters
        (ht.actions a (List.mem_of_getElem? ha)).precondition
        (by simp [Task.relationArity, ha]) q hq
  | @effect i a ha e he =>
      have he := (ht.actions a (List.mem_of_getElem? ha)).effects e he
      rcases List.mem_cons.mp hq with rfl | hq
      · exact isTyped_mention ht he.literal
      · rcases List.mem_cons.mp hq with rfl | hq
        · simp [Mention.IsTyped, Task.relationArity, ha]
        · exact (List.mem_append.mp hq).elim (isTyped_typeMentions _ q)
            (isTyped_positiveMentions ht he.condition q)
  | @derivation i x hx =>
      exact isTyped_applicabilityClause ht x.parameters
        (ht.axioms x (List.mem_of_getElem? hx)).condition (by simp [Task.relationArity, hx]) q hq
  | @head i x hx =>
      have hn := ht.axioms x (List.mem_of_getElem? hx)
      rcases List.mem_pair.mp hq with rfl | rfl
      · refine Eq.trans ?_ (ht.eq_relationArity hn.arity)
        simp [Axiom.externalParameters, hn.external]
      · simp [Mention.IsTyped, Task.relationArity, hx]
  | goal =>
      rcases List.mem_cons.mp hq with rfl | hq
      · rfl
      · exact isTyped_positiveMentions ht ht.goal q hq

namespace SymbolTable

theorem getElem?_of_relationId? {r : Relation} {id : RelationId} (h : T.relationId? r = some id) :
    T.relations[id.index]? = some r := by
  obtain ⟨i, hi, rfl⟩ := Option.map_eq_some_iff.mp h
  obtain ⟨hlt, hr, -⟩ := List.idxOf?_eq_some_iff.mp hi
  rw [List.getElem?_eq_getElem hlt, hr]

theorem getElem?_of_objectId? {x : String} {id : ObjectId} (h : T.objectId? x = some id) :
    T.objects[id.index]? = some x := by
  obtain ⟨i, hi, rfl⟩ := Option.map_eq_some_iff.mp h
  obtain ⟨hlt, hx, -⟩ := List.idxOf?_eq_some_iff.mp hi
  rw [List.getElem?_eq_getElem hlt, hx]

theorem relation_of_getElem? {r : Relation} {id : RelationId}
    (h : T.relations[id.index]? = some r) : T.relation id = r := by
  rw [relation, List.getD_eq_getElem?_getD, h]
  rfl

theorem object_of_getElem? {x : String} {id : ObjectId} (h : T.objects[id.index]? = some x) :
    T.object id = x := by
  rw [object, List.getD_eq_getElem?_getD, h]
  rfl

/-- Relations that are entered once have different names. -/
theorem relation_inj (hT : T.relations.Nodup) {i j : RelationId}
    (hi : i.index < T.relations.length) (hj : j.index < T.relations.length)
    (h : T.relation i = T.relation j) : i = j := by
  have hget : T.relations[i.index]? = T.relations[j.index]? := by
    rw [List.getElem?_eq_getElem hi, List.getElem?_eq_getElem hj]
    exact congrArg some ((relation_of_getElem? (List.getElem?_eq_getElem hi)).symm.trans
      (h.trans (relation_of_getElem? (List.getElem?_eq_getElem hj))))
  cases i
  cases j
  exact congrArg RelationId.mk ((List.getElem?_inj hi hT).mp hget)

theorem object_inj (hT : T.objects.Nodup) {i j : ObjectId} (hi : i.index < T.objects.length)
    (hj : j.index < T.objects.length) (h : T.object i = T.object j) : i = j := by
  have hget : T.objects[i.index]? = T.objects[j.index]? := by
    rw [List.getElem?_eq_getElem hi, List.getElem?_eq_getElem hj]
    exact congrArg some ((object_of_getElem? (List.getElem?_eq_getElem hi)).symm.trans
      (h.trans (object_of_getElem? (List.getElem?_eq_getElem hj))))
  cases i
  cases j
  exact congrArg ObjectId.mk ((List.getElem?_inj hi hT).mp hget)

end SymbolTable

open SymbolTable

/-- The numbers of arguments of the relations of a table. -/
def arityIn (t : Task) (T : SymbolTable) (id : RelationId) : Nat := t.relationArity (T.relation id)

theorem index_lt_of_relationId? {r : Relation} {id : RelationId} (h : T.relationId? r = some id) :
    id.index < T.relations.length := (List.getElem?_eq_some_iff.mp (getElem?_of_relationId? h)).1

theorem arityIn_of_relationId? {r : Relation} {id : RelationId} (h : T.relationId? r = some id) :
    arityIn t T id = t.relationArity r := by
  rw [arityIn, relation_of_getElem? (getElem?_of_relationId? h)]

theorem Pattern.Reads.isTyped {q : Mention} {p : Pattern} (h : p.Reads T q)
    (hq : Mention.IsTyped t q) : p.IsTyped T (arityIn t T) where
  relation := index_lt_of_relationId? h.relation
  arity := by
    rw [arityIn_of_relationId? h.relation, ← List.Forall₂.length_eq h.args]
    exact hq
  objects id hid := by
    obtain ⟨x, -, hx⟩ := exists_of_mem_forall₂_right h.args hid
    rw [Term.Reads] at hx
    split at hx
    · cases hx
    · obtain ⟨id', hid', he⟩ := hx
      cases he
      exact (List.getElem?_eq_some_iff.mp (getElem?_of_objectId? hid')).1

theorem Clause.Reads.isTyped {c : Clause} {r : Rule} (h : c.Reads T r)
    (hc : ∀ q ∈ c.head :: c.body, Mention.IsTyped t q) : r.IsTyped T (arityIn t T) := by
  intro p hp
  rcases List.mem_cons.mp hp with rfl | hp
  · exact h.head.isTyped (hc _ List.mem_cons_self)
  · obtain ⟨q, hq, hread⟩ := exists_of_mem_forall₂_right h.body hp
    exact hread.isTyped (hc q (List.mem_cons_of_mem _ hq))

theorem SymbolTable.Names.index_lt {r : Relation} {args : List String} {g : GroundAtom}
    (h : T.Names r args g) : ∀ o ∈ g.args, o.index < T.objects.length := by
  intro o ho
  obtain ⟨x, -, hx⟩ := exists_of_mem_forall₂_right h.args ho
  exact (List.getElem?_eq_some_iff.mp (getElem?_of_objectId? hx)).1

theorem SymbolTable.Names.isTyped {r : Relation} {args : List String} {g : GroundAtom}
    (h : T.Names r args g) (hr : args.length = t.relationArity r) : g.IsTyped T (arityIn t T) where
  relation := index_lt_of_relationId? h.relation
  arity := by
    rw [arityIn_of_relationId? h.relation, ← List.Forall₂.length_eq h.args]
    exact hr
  objects := h.index_lt

/-! ### The rules that are split -/

namespace Program

/-- Facts and rules after heads were guarded and repeated variables separated. -/
structure IsNormalized (T : SymbolTable) (object equal : RelationId) (guards : List ObjectId)
    (facts : List GroundAtom) (rules : List Rule) (result : List GroundAtom × List Rule) :
    Prop where
  objectId : T.relationId? .object = some object
  equalId : T.relationId? (.predicate .equal) = some equal
  known : ∀ o ∈ guards, o.index < T.objects.length
  mentioned : ∀ o ∈ guards, ∃ g ∈ facts, o ∈ g.args
  /-- If there are guards at all they let variables range over the objects of the facts. -/
  guarded : ∀ r ∈ rules, unboundVariables r ≠ [] → ∀ g ∈ facts, ∀ o ∈ g.args, o ∈ guards
  result : result = (separatedFacts equal (facts ++ guards.map fun o => ⟨object, [o]⟩)
    (rules.map (guardHead object)), separatedRules equal (rules.map (guardHead object)))

theorem normalizeRules_spec (s : SymbolTable) {facts : List GroundAtom} (rules : List Rule)
    (hfacts : ∀ g ∈ facts, ∀ o ∈ g.args, o.index < s.objects.length) :
    s.Grows ((normalizeRules facts rules).run s).2 ∧ ∃ object equal guards,
      IsNormalized ((normalizeRules facts rules).run s).2 object equal guards facts rules
        ((normalizeRules facts rules).run s).1 := by
  obtain ⟨hgrows, hobject⟩ := interns_relation (r := .object) rfl s
  obtain ⟨object, s₁, hrun⟩ : ∃ object s₁, (internRelation .object).run s = (object, s₁) :=
    ⟨_, _, rfl⟩
  obtain ⟨hgrows', hequal⟩ := interns_relation (r := .predicate .equal) rfl s₁
  obtain ⟨equal, s₂, hrun'⟩ : ∃ equal s₂, (internRelation (.predicate .equal)).run s₁ =
    (equal, s₂) := ⟨_, _, rfl⟩
  rw [hrun] at hgrows hobject
  rw [hrun'] at hgrows' hequal
  rw [normalizeRules, run_bind_of_run hrun, run_bind_of_run (m := get) rfl, run_bind_of_run hrun']
  refine ⟨hgrows.trans hgrows', object, equal, _, hobject _ hgrows'.toExtends, hequal _ (.refl _),
    fun o ho => ?_, fun o ho => ?_, fun r hr hunbound g hg o ho => ?_, rfl⟩
  · refine Nat.lt_of_lt_of_le ?_ hgrows'.objects.length_le
    split at ho
    · obtain ⟨i, hi, rfl⟩ := List.mem_map.mp (List.mem_of_mem_filter ho)
      exact List.mem_range.mp hi
    · exact absurd ho List.not_mem_nil
  · split at ho
    · exact List.mem_flatMap.mp (of_decide_eq_true (List.mem_filter.mp ho).2)
    · exact absurd ho List.not_mem_nil
  · rw [if_pos (List.any_eq_true.mpr ⟨r, hr, by simpa using hunbound⟩), List.mem_filter,
      decide_eq_true_eq]
    exact ⟨List.mem_map.mpr ⟨o.index, List.mem_range.mpr ((hfacts g hg o ho).trans_le
      hgrows.objects.length_le), rfl⟩, List.mem_flatMap.mpr ⟨g, hg, ho⟩⟩

section Normalized

variable {object equal : RelationId} {guards : List ObjectId} {facts : List GroundAtom}
  {rules : List Rule} {result : List GroundAtom × List Rule}

theorem IsNormalized.of_mem_facts (h : IsNormalized T object equal guards facts rules result)
    {g : GroundAtom} (hg : g ∈ result.1) : g ∈ facts ∨ (∃ o ∈ guards, g = ⟨object, [o]⟩) ∨
      ∃ r ∈ rules, (separateRepeated equal (guardHead object r)).body = [] ∧
        g = headFact (separateRepeated equal (guardHead object r)) := by
  rw [h.result] at hg
  rcases List.mem_append.mp hg with hg | hg
  · refine (List.mem_append.mp hg).imp_right fun hg => .inl ?_
    obtain ⟨o, ho, rfl⟩ := List.mem_map.mp hg
    exact ⟨o, ho, rfl⟩
  · obtain ⟨r', hr', rfl⟩ := List.mem_map.mp hg
    obtain ⟨hr', hempty⟩ := List.mem_filter.mp hr'
    obtain ⟨r₁, hr₁, rfl⟩ := List.mem_map.mp hr'
    obtain ⟨r, hr, rfl⟩ := List.mem_map.mp hr₁
    exact .inr (.inr ⟨r, hr, by simpa using hempty, rfl⟩)

theorem IsNormalized.mem_rules_iff (h : IsNormalized T object equal guards facts rules result)
    {r' : Rule} : r' ∈ result.2 ↔ (∃ r ∈ rules, separateRepeated equal (guardHead object r) = r') ∧
      r'.body ≠ [] := by
  rw [h.result]
  simp only [separatedRules, List.mem_filter, List.mem_map, exists_exists_and_eq_and]
  simp

theorem IsNormalized.isTyped (h : IsNormalized T object equal guards facts rules result)
    (hfacts : ∀ g ∈ facts, g.IsTyped T (arityIn t T))
    (hrules : ∀ r ∈ rules, r.IsTyped T (arityIn t T)) :
    (∀ g ∈ result.1, g.IsTyped T (arityIn t T)) ∧ ∀ r ∈ result.2, r.IsTyped T (arityIn t T) := by
  have hseparated : ∀ r ∈ rules,
      (separateRepeated equal (guardHead object r)).IsTyped T (arityIn t T) := fun r hr =>
    ((hrules r hr).guardHead (index_lt_of_relationId? h.objectId)
      (arityIn_of_relationId? h.objectId)).separateRepeated (index_lt_of_relationId? h.equalId)
      (arityIn_of_relationId? h.equalId)
  refine ⟨fun g hg => ?_, fun r' hr' => ?_⟩
  · rcases h.of_mem_facts hg with hg | ⟨o, ho, rfl⟩ | ⟨r, hr, hbody, rfl⟩
    · exact hfacts g hg
    · refine ⟨index_lt_of_relationId? h.objectId, (arityIn_of_relationId? h.objectId).symm, ?_⟩
      intro id hid
      rw [List.mem_singleton.mp hid]
      exact h.known o ho
    · exact (hseparated r hr).headFact (isBound_separateRepeated isBound_guardHead) hbody
  · obtain ⟨⟨r, hr, rfl⟩, -⟩ := h.mem_rules_iff.mp hr'
    exact hseparated r hr

end Normalized

/-! ### The whole program -/

/-- How the grounding program of a task comes about: raw facts and rules are normalized over a
table, and the rules are split. -/
structure IsBuiltFrom (t : Task) (p : Program) (T : SymbolTable)
    (raw result : List GroundAtom × List Rule) (aux : List SplitRule) : Prop where
  isRaw : IsRaw t T raw.1 raw.2
  normalized : ∃ object equal guards, IsNormalized T object equal guards raw.1 raw.2 result
  relations_nodup : T.relations.Nodup
  objects_nodup : T.objects.Nodup
  facts : p.facts = result.1
  symbols : T.AddsAuxiliary p.symbols
  splits : SplitsAll T.relations.length p.symbols.relations.length result.2 aux p.rules
  single : ∀ r ∈ result.2, ∀ q, r.body = [q] → ∃ x ∈ p.rules, x.toRule = r

theorem exists_isBuiltFrom (t : Task) : ∃ T raw result aux,
    IsBuiltFrom t (ofTask t) T raw result aux := by
  obtain ⟨hgrows, hraw⟩ := interns_rawRules t {}
  rw [ofTask_eq, StateT.run_bind]
  revert hgrows hraw
  generalize (rawRules t).run {} = built
  obtain ⟨raw, T₁⟩ := built
  intro hgrows hraw
  have hfacts : ∀ g ∈ raw.1, ∀ o ∈ g.args, o.index < T₁.objects.length := by
    intro g hg o ho
    obtain ⟨a, -, hnames⟩ := exists_of_mem_forall₂_right (hraw _ (.refl _)).facts hg
    exact hnames.index_lt o ho
  obtain ⟨hgrows', hnormalized⟩ := normalizeRules_spec T₁ raw.2 hfacts
  change ∃ T raw' result aux, IsBuiltFrom t
    { symbols := (splitRules ((normalizeRules raw.1 raw.2).run T₁).2
        ((normalizeRules raw.1 raw.2).run T₁).1.2).2
      facts := ((normalizeRules raw.1 raw.2).run T₁).1.1
      rules := (splitRules ((normalizeRules raw.1 raw.2).run T₁).2
        ((normalizeRules raw.1 raw.2).run T₁).1.2).1 } T raw' result aux
  revert hgrows' hnormalized
  generalize (normalizeRules raw.1 raw.2).run T₁ = built
  obtain ⟨result, T⟩ := built
  intro hgrows' hnormalized
  have hgrows := hgrows.trans hgrows'
  have hrules : ∀ r ∈ result.2, r.body ≠ [] ∧ r.IsBound := by
    obtain ⟨object, equal, guards, hn⟩ := hnormalized
    intro r' hr'
    obtain ⟨⟨r, -, rfl⟩, hne⟩ := hn.mem_rules_iff.mp hr'
    exact ⟨hne, isBound_separateRepeated isBound_guardHead⟩
  obtain ⟨aux, hsplit, hadds, hsingle⟩ := splitRules_spec (T := T)
    (fun k hk => absurd (hgrows.auxiliary _ hk rfl) List.not_mem_nil)
    (fun r (hr : r ∈ result.2) => (hrules r hr).1) fun r hr => (hrules r hr).2
  exact ⟨T, raw, result, aux, hraw _ hgrows'.toExtends, hnormalized,
    hgrows.relations_nodup List.nodup_nil, hgrows.objects_nodup List.nodup_nil, rfl, hadds, hsplit,
    hsingle⟩

end Program
end Datalog
end FinitePlanning
