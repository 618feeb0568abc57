import FinitePlanning.Proofs.Exploration.Completeness

/-!
Making the rules of a task safe and free of repeated arguments. What follows from the facts and the
rules stays the same, as long as the names that replace repeated variables are new to their rules.
-/

namespace FinitePlanning
namespace Datalog

open SymbolTable

variable {t : Task} {T : SymbolTable} {c : Clause} {r : Rule}

/-! ### The variables and relations of clauses -/

/-- The variables of the head occur in the conditions. -/
def Clause.IsBound (c : Clause) : Prop :=
  ∀ v ∈ c.head.2, isVariable v = true → ∃ q ∈ c.body, v ∈ q.2

theorem exists_typeMention {ps : List Parameter} {v : String} (hv : v ∈ ps.map (·.name)) :
    ∃ q ∈ typeMentions ps, v ∈ q.2 := by
  obtain ⟨p, hp, rfl⟩ := List.mem_map.mp hv
  exact ⟨_, List.mem_map_of_mem hp, List.mem_singleton_self _⟩

theorem isBound_applicabilityClause (rel : Relation) (ps : List Parameter) (cond : Condition) :
    (applicabilityClause rel ps cond).IsBound := by
  intro v hv _
  obtain ⟨q, hq, hvq⟩ := exists_typeMention hv
  exact ⟨q, List.mem_append_left _ hq, hvq⟩

/-- The types of the parameters let the variables of each head range over objects. -/
theorem isBound_of_mem_clauses (ht : t.IsNormal) (hc : c ∈ clauses t) : c.IsBound := by
  cases isClauseOf_of_mem hc with
  | action _ | derivation _ => exact isBound_applicabilityClause _ _ _
  | @effect i a ha e he =>
      intro v hv hvariable
      have hscope :=
        ((((ht.actions a (List.mem_of_getElem? ha)).effects e he).literal.args v hv).1 hvariable)
      rw [List.map_append] at hscope
      rcases List.mem_append.mp hscope with hv | hv
      · exact ⟨_, List.mem_cons_self, hv⟩
      · obtain ⟨q, hq, hvq⟩ := exists_typeMention hv
        exact ⟨q, List.mem_cons_of_mem _ (List.mem_append_left _ hq), hvq⟩
  | @head i x hx =>
      intro v hv _
      have hv : v ∈ (x.parameters.take x.external).map (·.name) := hv
      rw [List.map_take] at hv
      exact ⟨_, List.mem_cons_self, List.mem_of_mem_take hv⟩
  | goal => exact fun v hv => absurd hv List.not_mem_nil

theorem ne_object_of_mem_typeMentions {ps : List Parameter} :
    ∀ q ∈ typeMentions ps, q.1 ≠ .object := by
  intro q hq
  obtain ⟨p, -, rfl⟩ := List.mem_map.mp hq
  exact Relation.noConfusion

theorem ne_object_of_mem_positiveMentions {cond : Condition} :
    ∀ q ∈ positiveMentions cond, q.1 ≠ .object := by
  intro q hq
  obtain ⟨l, -, rfl⟩ := List.mem_map.mp hq
  exact Relation.noConfusion

/-- The clauses of a task do not mention the relation that guards use. -/
theorem ne_object_of_mem_clauses (hc : c ∈ clauses t) : ∀ q ∈ c.head :: c.body, q.1 ≠ .object := by
  have happend : ∀ ps cond, ∀ q ∈ typeMentions ps ++ positiveMentions cond, q.1 ≠ .object :=
    fun ps cond => List.forall_mem_append.mpr
      ⟨ne_object_of_mem_typeMentions, ne_object_of_mem_positiveMentions⟩
  cases isClauseOf_of_mem hc with
  | action _ | derivation _ =>
      exact List.forall_mem_cons.mpr ⟨Relation.noConfusion, happend _ _⟩
  | effect _ _ =>
      exact List.forall_mem_cons.mpr ⟨Relation.noConfusion,
        List.forall_mem_cons.mpr ⟨Relation.noConfusion, happend _ _⟩⟩
  | head _ =>
      exact List.forall_mem_cons.mpr ⟨Relation.noConfusion,
        List.forall_mem_singleton.mpr Relation.noConfusion⟩
  | goal =>
      exact List.forall_mem_cons.mpr ⟨Relation.noConfusion, ne_object_of_mem_positiveMentions⟩

theorem Pattern.Reads.mem_vars {q : Mention} {p : Pattern} (h : p.Reads T q) {v : String}
    (hv : v ∈ q.2) (hvariable : isVariable v = true) : v ∈ p.vars := by
  obtain ⟨term, hterm, hread⟩ := exists_of_mem_forall₂ h.args hv
  rw [Term.Reads, if_pos hvariable] at hread
  exact Pattern.mem_vars.mpr (hread ▸ hterm)

theorem Clause.Reads.isBound (h : c.Reads T r) (hc : c.IsBound) : r.IsBound := by
  intro v hv
  obtain ⟨hvariable, hmem⟩ := h.head.of_mem_vars hv
  obtain ⟨q, hq, hvq⟩ := hc v hmem hvariable
  obtain ⟨p, hp, hread⟩ := exists_of_mem_forall₂ h.body hq
  exact ⟨p, hp, hread.mem_vars hvq hvariable⟩

theorem Pattern.Reads.relation_eq {q : Mention} {p : Pattern} (h : p.Reads T q) :
    T.relation p.relation = q.1 := relation_of_getElem? (getElem?_of_relationId? h.relation)

theorem SymbolTable.Names.relation_eq {rel : Relation} {args : List String} {g : GroundAtom}
    (h : T.Names rel args g) : T.relation g.relation = rel :=
  relation_of_getElem? (getElem?_of_relationId? h.relation)

namespace Program

section Raw

variable {facts : List GroundAtom} {rules : List Rule} (hraw : IsRaw t T facts rules)
include hraw

theorem IsRaw.isBound (ht : t.IsNormal) : ∀ r ∈ rules, r.IsBound := by
  intro r hr
  obtain ⟨c, hc, hread⟩ := exists_of_mem_forall₂_right hraw.rules hr
  exact hread.isBound (isBound_of_mem_clauses ht hc)

theorem IsRaw.ne_object_of_mem_facts : ∀ g ∈ facts, T.relation g.relation ≠ .object := by
  intro g hg
  obtain ⟨a, -, hnames⟩ := exists_of_mem_forall₂_right hraw.facts hg
  rw [hnames.relation_eq]
  exact Relation.noConfusion

theorem IsRaw.ne_object_of_mem_rules :
    ∀ r ∈ rules, ∀ p ∈ r.head :: r.body, T.relation p.relation ≠ .object := by
  intro r hr p hp
  obtain ⟨c, hc, hread⟩ := exists_of_mem_forall₂_right hraw.rules hr
  obtain ⟨q, hq, hreads⟩ := exists_of_mem_forall₂_right (.cons hread.head hread.body) hp
  rw [hreads.relation_eq]
  exact ne_object_of_mem_clauses hc q hq

/-- Nothing has to be guarded. -/
theorem IsRaw.map_guardHead (ht : t.IsNormal) (object : RelationId) :
    rules.map (guardHead object) = rules := by
  conv_rhs => rw [← rules.map_id]
  exact List.map_congr_left fun r hr => guardHead_of_isBound (hraw.isBound ht r hr)

theorem IsRaw.isFresh (ht : t.IsNormal) (hg : t.IsGroundable) : ∀ r ∈ rules, IsFresh r := by
  intro r hr
  obtain ⟨c, hc, hread⟩ := exists_of_mem_forall₂_right hraw.rules hr
  exact ((isPlain_of_mem_clauses ht hg hc).mono fun v hv => hread.of_mentions hv).isFresh

end Raw

section Normalized

variable {object equal : RelationId} {guards : List ObjectId} {facts : List GroundAtom}
  {rules : List Rule} {result : List GroundAtom × List Rule}
  (hraw : IsRaw t T facts rules) (hn : IsNormalized T object equal guards facts rules result)
  (ht : t.IsNormal) (hfresh : ∀ r ∈ rules, IsFresh r)
include hraw hn ht hfresh

theorem IsNormalized.leastModel_eq :
    {a ∈ leastModel {a | a ∈ result.1} {r | r ∈ result.2} | T.relation a.relation ≠ .object} =
      leastModel {a | a ∈ facts} {r | r ∈ rules} := by
  have hequality := hn.hasEquality hraw ht
  rw [hn.result]
  rw [hraw.map_guardHead ht] at hequality ⊢
  rw [leastModel_separated hequality hfresh (hraw.isBound ht)]
  have hunion : {a | a ∈ facts ++ guards.map fun o => ⟨object, [o]⟩} =
      {a | a ∈ facts} ∪ {a | a ∈ guards.map fun o => (⟨object, [o]⟩ : GroundAtom)} :=
    Set.ext fun a => List.mem_append
  rw [hunion]
  refine leastModel_union_of_unmentioned (fun id => T.relation id = .object) (fun a ha => ?_)
    hraw.ne_object_of_mem_facts hraw.ne_object_of_mem_rules
  obtain ⟨o, -, rfl⟩ := List.mem_map.mp ha
  exact relation_of_getElem? (getElem?_of_relationId? hn.objectId)

omit hraw ht hfresh in
theorem IsNormalized.isSafe : ∀ r ∈ result.2, r.body ≠ [] ∧ r.IsBound := by
  intro r' hr'
  obtain ⟨⟨r, -, rfl⟩, hne⟩ := hn.mem_rules_iff.mp hr'
  exact ⟨hne, isBound_separateRepeated isBound_guardHead⟩

theorem IsNormalized.nodup_vars : ∀ r ∈ result.2, ∀ p ∈ r.head :: r.body, p.vars.Nodup := by
  intro r' hr'
  obtain ⟨⟨r, hr, rfl⟩, -⟩ := hn.mem_rules_iff.mp hr'
  refine nodup_separateRepeated ?_
  rw [guardHead_of_isBound (hraw.isBound ht r hr)]
  exact hfresh r hr

end Normalized

namespace RawProgram

/-- What follows from the facts by the rules. -/
def model (p : RawProgram) : Set GroundAtom := leastModel {a | a ∈ p.facts} {r | r ∈ p.rules}

/-- Guards heads, separates repeated variables and turns rules without conditions into facts. -/
def normalize (p : RawProgram) : RawProgram :=
  let result := Id.run ((normalizeRules p.facts p.rules).run p.symbols)
  ⟨result.2, result.1.1, result.1.2⟩

/-- The grounding program splits the rules of the normalized one. -/
theorem ofTask_eq_splitRules (t : Task) : ofTask t =
    (let p := (rawProgram t).normalize
    let (rules, symbols) := splitRules p.symbols p.rules
    { symbols, facts := p.facts, rules }) := by
  rw [ofTask_eq, StateT.run_bind]
  rfl

/-- Numbers that were given before rules are normalized are kept. -/
theorem isNormalized_normalize (t : Task) :
    IsRaw t (rawProgram t).normalize.symbols (rawProgram t).facts (rawProgram t).rules ∧
      ∃ object equal guards, IsNormalized (rawProgram t).normalize.symbols object equal guards
        (rawProgram t).facts (rawProgram t).rules
        ((rawProgram t).normalize.facts, (rawProgram t).normalize.rules) := by
  have hfacts : ∀ g ∈ (rawProgram t).facts, ∀ o ∈ g.args,
      o.index < (rawProgram t).symbols.objects.length := by
    intro g hg
    obtain ⟨a, -, hnames⟩ := exists_of_mem_forall₂_right (isRaw_rawProgram t).facts hg
    exact hnames.index_lt
  obtain ⟨hgrows, hnormalized⟩ :=
    normalizeRules_spec (rawProgram t).symbols (rawProgram t).rules hfacts
  exact ⟨(interns_rawRules t {}).2 _ hgrows.toExtends, hnormalized⟩

/-- Normalization makes the rules of a task safe. It keeps their model, and no atom repeats a
variable, where no name that replaces a repeated variable is a variable of the rule. -/
theorem normalize_preserves_model (ht : t.IsNormal) :
    (∀ r ∈ (rawProgram t).normalize.rules, r.body ≠ [] ∧ r.IsBound) ∧
    ((∀ r ∈ (rawProgram t).rules, IsFresh r) →
      {a ∈ (rawProgram t).normalize.model |
        (rawProgram t).normalize.symbols.relation a.relation ≠ .object} = (rawProgram t).model ∧
      ∀ r ∈ (rawProgram t).normalize.rules, ∀ p ∈ r.head :: r.body, p.vars.Nodup) := by
  obtain ⟨hraw, object, equal, guards, hn⟩ := isNormalized_normalize t
  exact ⟨hn.isSafe, fun hfresh =>
    ⟨hn.leastModel_eq hraw ht hfresh, hn.nodup_vars hraw ht hfresh⟩⟩

/-- A task with an action that links an object to itself. -/
def linking : Task where
  domainName := "links"
  problemName := "links"
  requirements := []
  types := ⟨[objectType], []⟩
  objects := [⟨"a", objectType⟩, ⟨"b", objectType⟩]
  predicates := [⟨"linked", [⟨"?x", objectType⟩, ⟨"?y", objectType⟩], false⟩]
  functions := []
  init := [.named "linked" ["a", "a"], ⟨.equal, ["a", "a"]⟩, ⟨.equal, ["b", "b"]⟩]
  assignments := []
  goal := .literal (Atom.named "linked" ["b", "b"]).positive
  actions := [{
    name := { name := "link" }
    parameters := [⟨"?x", objectType⟩, ⟨"?y", objectType⟩]
    external := 2
    precondition := .literal (Atom.named "linked" ["?x", "?x"]).positive
    effects := [⟨[], .true, (Atom.named "linked" ["?y", "?y"]).positive⟩]
    cost := none }]
  axioms := []
  minimizesCost := false

theorem linking_isNormal : linking.IsNormal where
  objects := by decide
  predicates := by decide
  init := by decide
  equal := by simp [linking, Atom.named]
  goal := by decide
  actions := by decide
  axioms := nofun

theorem linking_isGroundable : linking.IsGroundable where
  actions a ha := by
    refine isPlain_of_notMem fun v hv => ?_
    obtain rfl := List.mem_singleton.mp ha
    have hnames : ∀ v ∈ (linking.actions.head (by decide)).variableNames, '@' ∉ v.toList := by
      decide
    exact hnames v hv
  axioms _ hx := absurd hx List.not_mem_nil
  types a ha type htype := by
    have hnone : ∀ a ∈ linking.init, ∀ type, a.predicate ≠ .type type := by
      simp [linking, Atom.named]
    exact absurd htype (hnone a ha type)

theorem linking_preserves_model :
    linking.IsNormal ∧ (∀ r ∈ (rawProgram linking).rules, IsFresh r) ∧
    {a ∈ (rawProgram linking).normalize.model |
      (rawProgram linking).normalize.symbols.relation a.relation ≠ .object} =
        (rawProgram linking).model ∧
    ∀ r ∈ (rawProgram linking).normalize.rules, ∀ p ∈ r.head :: r.body, p.vars.Nodup := by
  have hfresh := (isRaw_rawProgram linking).isFresh linking_isNormal linking_isGroundable
  exact ⟨linking_isNormal, hfresh, (normalize_preserves_model linking_isNormal).2 hfresh⟩

end RawProgram
end Program
end Datalog
end FinitePlanning
