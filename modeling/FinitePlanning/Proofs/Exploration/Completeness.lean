import FinitePlanning.Proofs.Exploration.Explored
import FinitePlanning.Proofs.Exploration.Relaxation

/-!
The exploration finds the least model of the grounding program. Since this covers all runs, what is
found has all atoms, actions and axioms that play a role in some run, and they are typed.
-/

namespace FinitePlanning

open Datalog

/-- Tasks that the grounding program is faithful to. No variable has the name that replaces a
repeated occurrence of another one, and initially no object is said to be of a type that it does not
have. -/
structure Task.IsGroundable (t : Task) : Prop where
  actions : ∀ a ∈ t.actions, Program.IsPlain (· ∈ a.variableNames)
  axioms : ∀ x ∈ t.axioms, Program.IsPlain (· ∈ x.parameters.map (·.name))
  types : ∀ a ∈ t.init, ∀ type, a.predicate = .type type → a ∈ t.typeAtoms

theorem Task.mem_typeAtoms {t : Task} {type : String} {args : List String} :
    (⟨.type type, args⟩ : Atom) ∈ t.typeAtoms ↔ ∃ o ∈ t.objectsOf type, args = [o] := by
  simp only [typeAtoms, objectsOf, List.mem_flatMap, List.mem_map, List.mem_filter,
    decide_eq_true_eq]
  constructor
  · rintro ⟨o, ho, type', htype, he⟩
    cases he
    exact ⟨o.name, ⟨o, ⟨ho, htype⟩, rfl⟩, rfl⟩
  · rintro ⟨_, ⟨o, ⟨ho, htype⟩, rfl⟩, rfl⟩
    exact ⟨o, ho, type, htype, rfl⟩

namespace Datalog

open SymbolTable Grounding

variable {t : Task} {T : SymbolTable} {c : Clause} {r : Rule}

/-! ### The variables of clauses -/

theorem Program.IsPlain.mono {vars vars' : String → Prop} (h : IsPlain vars')
    (hsub : ∀ v, vars v → vars' v) : IsPlain vars :=
  fun v w hv hw n => h v w (hsub v hv) (hsub w hw) n

/-- Names without the character that marks replacements are not confused with these. -/
theorem Program.isPlain_of_notMem {vars : String → Prop} (h : ∀ v, vars v → '@' ∉ v.toList) :
    IsPlain vars := by
  rintro v w hv - n rfl
  refine h _ hv ?_
  simp [replacement]

def Clause.Mentions (c : Clause) (v : String) : Prop :=
  isVariable v = true ∧ ∃ q ∈ c.head :: c.body, v ∈ q.2

theorem Pattern.Reads.of_mem_vars {q : Mention} {p : Pattern} (h : p.Reads T q) {v : String}
    (hv : v ∈ p.vars) : isVariable v = true ∧ v ∈ q.2 := by
  obtain ⟨x, hx, hread⟩ := exists_of_mem_forall₂_right h.args (Pattern.mem_vars.mp hv)
  rw [Term.Reads] at hread
  split at hread
  next hvariable =>
    cases hread
    exact ⟨hvariable, hx⟩
  next =>
    obtain ⟨id, -, hid⟩ := hread
    cases hid

theorem Clause.Reads.of_mentions (h : c.Reads T r) {v : String} (hv : r.Mentions v) :
    c.Mentions v := by
  obtain ⟨p, hp, hv⟩ := hv
  rcases List.mem_cons.mp hp with rfl | hp
  · obtain ⟨hvariable, hmem⟩ := h.head.of_mem_vars hv
    exact ⟨hvariable, _, List.mem_cons_self, hmem⟩
  · obtain ⟨q, hq, hread⟩ := exists_of_mem_forall₂_right h.body hp
    obtain ⟨hvariable, hmem⟩ := hread.of_mem_vars hv
    exact ⟨hvariable, q, List.mem_cons_of_mem _ hq, hmem⟩

theorem Program.mentions_of_guardHead {object : RelationId} {v : String}
    (h : (guardHead object r).Mentions v) : r.Mentions v := by
  obtain ⟨p, hp, hv⟩ := h
  rcases List.mem_cons.mp hp with rfl | hp
  · exact ⟨_, List.mem_cons_self, hv⟩
  · rcases List.mem_append.mp hp with hp | hp
    · exact ⟨p, List.mem_cons_of_mem _ hp, hv⟩
    · obtain ⟨w, hw, rfl⟩ := List.mem_map.mp hp
      obtain rfl : v = w := by simpa [Pattern.vars, Term.variable?] using hv
      simp only [unboundVariables, Condition.sortedNames, List.mem_mergeSort, List.mem_eraseDups,
        List.mem_filter] at hw
      exact ⟨_, List.mem_cons_self, hw.1⟩

theorem mem_of_mem_typeMentions {ps : List Parameter} {q : Mention} (hq : q ∈ typeMentions ps)
    {v : String} (hv : v ∈ q.2) : v ∈ ps.map (·.name) := by
  obtain ⟨p, hp, rfl⟩ := List.mem_map.mp hq
  obtain rfl := List.mem_singleton.mp hv
  exact List.mem_map_of_mem hp

theorem mem_of_mem_positiveMentions {cond : Condition} {vars : List String} (h : cond.IsOver t vars)
    {q : Mention} (hq : q ∈ positiveMentions cond) {v : String} (hv : v ∈ q.2)
    (hvariable : isVariable v = true) : v ∈ vars := by
  obtain ⟨l, hl, rfl⟩ := List.mem_map.mp hq
  exact ((h.literals l (List.mem_filter.mp hl).1).args v hv).1 hvariable

theorem mem_of_mentions_applicabilityClause {rel : Relation} {ps : List Parameter}
    {cond : Condition} (h : cond.IsOver t (ps.map (·.name))) {v : String}
    (hv : (applicabilityClause rel ps cond).Mentions v) : v ∈ ps.map (·.name) := by
  obtain ⟨hvariable, q, hq, hv⟩ := hv
  rcases List.mem_cons.mp hq with rfl | hq
  · exact hv
  · rcases List.mem_append.mp hq with hq | hq
    · exact mem_of_mem_typeMentions hq hv
    · exact mem_of_mem_positiveMentions h hq hv hvariable

/-- The variables of a clause are those of a schema. -/
theorem isPlain_of_mem_clauses (ht : t.IsNormal) (hg : t.IsGroundable) (hc : c ∈ clauses t) :
    Program.IsPlain c.Mentions := by
  cases isClauseOf_of_mem hc with
  | @action i a ha =>
      have ha := List.mem_of_getElem? ha
      refine (hg.actions a ha).mono fun v hv => ?_
      have hv := mem_of_mentions_applicabilityClause (ht.actions a ha).precondition hv
      rw [Action.variableNames, List.map_append]
      exact List.mem_append_left _ hv
  | @effect i a ha e he =>
      have ha := List.mem_of_getElem? ha
      have hn := (ht.actions a ha).effects e he
      suffices hall : ∀ v, (effectClause (.action i, a.parameters.map (·.name)) e).Mentions v →
          v ∈ (a.parameters ++ e.parameters).map (·.name) by
        refine (hg.actions a ha).mono fun v hv => ?_
        obtain ⟨p, hp, rfl⟩ := List.mem_map.mp (hall v hv)
        refine List.mem_map_of_mem (List.mem_append.mpr ((List.mem_append.mp hp).imp_right
          fun hp => ?_))
        exact List.mem_flatMap.mpr ⟨e, he, hp⟩
      rintro v ⟨hvariable, q, hq, hv⟩
      rcases List.mem_cons.mp hq with rfl | hq
      · exact (hn.literal.args v hv).1 hvariable
      · rcases List.mem_cons.mp hq with rfl | hq
        · rw [List.map_append]
          exact List.mem_append_left _ hv
        · rcases List.mem_append.mp hq with hq | hq
          · rw [List.map_append]
            exact List.mem_append_right _ (mem_of_mem_typeMentions hq hv)
          · exact mem_of_mem_positiveMentions hn.condition hq hv hvariable
  | @derivation i x hx =>
      have hx := List.mem_of_getElem? hx
      exact (hg.axioms x hx).mono fun v hv =>
        mem_of_mentions_applicabilityClause (ht.axioms x hx).condition hv
  | @head i x hx =>
      refine (hg.axioms x (List.mem_of_getElem? hx)).mono fun v hv => ?_
      obtain ⟨-, q, hq, hv⟩ := hv
      rcases List.mem_pair.mp hq with rfl | rfl
      · rw [Axiom.externalParameters, List.map_take] at hv
        exact List.mem_of_mem_take hv
      · exact hv
  | goal =>
      rintro v w ⟨hvariable, q, hq, hv⟩
      rcases List.mem_cons.mp hq with rfl | hq
      · exact absurd hv List.not_mem_nil
      · exact absurd (mem_of_mem_positiveMentions ht.goal hq hv hvariable) List.not_mem_nil

/-! ### The least model -/

theorem SymbolTable.eq_of_relationId? {q q' : Relation} {id : RelationId}
    (hq : T.relationId? q = some id) (hq' : T.relationId? q' = some id) : q = q' :=
  Option.some.inj ((getElem?_of_relationId? hq).symm.trans (getElem?_of_relationId? hq'))

theorem SymbolTable.relationId?_relation (hT : T.relations.Nodup) {id : RelationId}
    (h : id.index < T.relations.length) : T.relationId? (T.relation id) = some id := by
  have hmem : T.relation id ∈ T.relations :=
    List.mem_of_getElem? ((List.getElem?_eq_getElem h).trans
      (congrArg some (relation_of_getElem? (List.getElem?_eq_getElem h)).symm))
  obtain ⟨id', hid'⟩ : ∃ id', T.relationId? (T.relation id) = some id' := by
    refine Option.ne_none_iff_exists'.mp fun hnone => ?_
    rw [SymbolTable.relationId?, Option.map_eq_none_iff, List.idxOf?_eq_none_iff] at hnone
    exact hnone hmem
  rw [hid', relation_inj hT (index_lt_of_relationId? hid') h
    (relation_of_getElem? (getElem?_of_relationId? hid'))]

theorem SymbolTable.objectId?_object (hT : T.objects.Nodup) {id : ObjectId}
    (h : id.index < T.objects.length) : T.objectId? (T.object id) = some id := by
  have hmem : T.object id ∈ T.objects :=
    List.mem_of_getElem? ((List.getElem?_eq_getElem h).trans
      (congrArg some (object_of_getElem? (List.getElem?_eq_getElem h)).symm))
  obtain ⟨id', hid'⟩ : ∃ id', T.objectId? (T.object id) = some id' := by
    refine Option.ne_none_iff_exists'.mp fun hnone => ?_
    rw [SymbolTable.objectId?, Option.map_eq_none_iff, List.idxOf?_eq_none_iff] at hnone
    exact hnone hmem
  have hlt := (List.getElem?_eq_some_iff.mp (getElem?_of_objectId? hid')).1
  rw [hid', object_inj hT hlt h (object_of_getElem? (getElem?_of_objectId? hid'))]

/-- An atom over the symbols of a table stands for these. -/
theorem SymbolTable.names_of_index_lt (hrelations : T.relations.Nodup) (hobjects : T.objects.Nodup)
    {g : GroundAtom} (hg : g.relation.index < T.relations.length)
    (hargs : ∀ o ∈ g.args, o.index < T.objects.length) :
    T.Names (T.relation g.relation) (g.args.map T.object) g where
  relation := relationId?_relation hrelations hg
  args := by
    rw [List.forall₂_map_left_iff, List.forall₂_same]
    exact fun o ho => objectId?_object hobjects (hargs o ho)

theorem SymbolTable.Names.inj {q q' : Relation} {args args' : List String} {g : GroundAtom}
    (h : T.Names q args g) (h' : T.Names q' args' g) : q = q' ∧ args = args' := by
  refine ⟨eq_of_relationId? h.relation h'.relation, ?_⟩
  have hobjects : ∀ {args : List String} {ids : List ObjectId},
      List.Forall₂ (fun x id => T.objectId? x = some id) args ids → args = ids.map T.object := by
    intro args ids hargs
    induction hargs with
    | nil => rfl
    | cons hx _ ih => rw [List.map_cons, ← ih, object_of_getElem? (getElem?_of_objectId? hx)]
  rw [hobjects h.args, hobjects h'.args]

/-- The objects in the head of a clause are those of the task. -/
theorem mem_objects_of_mem_head (ht : t.IsNormal) (hc : c ∈ clauses t) {x : String}
    (hx : x ∈ c.head.2) (hv : isVariable x = false) : x ∈ t.objects.map (·.name) := by
  have hparameters : ∀ {ps : List Parameter}, AreVariables ps → x ∉ ps.map (·.name) := by
    intro ps hps hmem
    rw [hps.isVariable_of_mem hmem] at hv
    cases hv
  cases isClauseOf_of_mem hc with
  | action ha =>
      exact absurd hx (hparameters (ht.actions _ (List.mem_of_getElem? ha)).parameters)
  | effect ha he =>
      exact (((ht.actions _ (List.mem_of_getElem? ha)).effects _ he).literal.args x hx).2 hv
  | derivation hy =>
      exact absurd hx (hparameters (ht.axioms _ (List.mem_of_getElem? hy)).parameters)
  | head hy =>
      rw [Axiom.externalParameters, List.map_take] at hx
      exact absurd (List.mem_of_mem_take hx)
        (hparameters (ht.axioms _ (List.mem_of_getElem? hy)).parameters)
  | goal => exact absurd hx List.not_mem_nil

/-- The predicates in the heads of clauses are those of the domain. -/
theorem named_of_mem_head (ht : t.IsNormal) (hc : c ∈ clauses t) {p : Predicate}
    (hp : c.head.1 = .predicate p) : ∃ name, p = .named name := by
  cases isClauseOf_of_mem hc with
  | effect ha he =>
      obtain rfl : _ = p := Relation.predicate.inj hp
      exact ((ht.actions _ (List.mem_of_getElem? ha)).effects _ he).named
  | head hx =>
      cases hp
      exact ⟨_, rfl⟩
  | action _ | derivation _ | goal => cases hp

theorem args_mem_objects (ht : t.IsNormal) {a : Atom} (ha : a ∈ t.typeAtoms ++ t.init) :
    ∀ x ∈ a.args, x ∈ t.objects.map (·.name) := by
  intro x hx
  rcases List.mem_append.mp ha with ha | ha
  · obtain ⟨o, ho, ha⟩ := List.mem_flatMap.mp ha
    obtain ⟨type, -, rfl⟩ := List.mem_map.mp ha
    obtain rfl := List.mem_singleton.mp hx
    exact List.mem_map_of_mem ho
  · exact (ht.init a ha).1.args x hx

/-- A clause that lets some variables range over all objects. -/
def Clause.guard (c : Clause) (vars : List String) : Clause :=
  ⟨c.head, c.body ++ vars.map fun v => (.object, [v])⟩

theorem mem_head_of_mem_unboundVariables {v : String} (hv : v ∈ Program.unboundVariables r) :
    v ∈ r.head.vars := by
  simp only [Program.unboundVariables, Condition.sortedNames, List.mem_mergeSort,
    List.mem_eraseDups, List.mem_filter] at hv
  exact hv.1

theorem Clause.Reads.guardHead {object : RelationId} (h : c.Reads T r)
    (hobject : T.relationId? .object = some object) :
    (c.guard (Program.unboundVariables r)).Reads T (Program.guardHead object r) where
  head := h.head
  body := by
    refine List.rel_append h.body ?_
    rw [List.forall₂_map_left_iff, List.forall₂_map_right_iff, List.forall₂_same]
    intro v hv
    refine ⟨hobject, .cons ?_ .nil⟩
    rw [Term.Reads, if_pos (h.head.of_mem_vars (mem_head_of_mem_unboundVariables hv)).1]

/-- The names of the values of variables. -/
def SymbolTable.valuesUnder (T : SymbolTable) (σ : String → ObjectId) (x : String) : String :=
  if isVariable x = true then T.object (σ x) else x

theorem Pattern.Reads.names_eval {q : Mention} {p : Pattern} (h : p.Reads T q)
    (hobjects : T.objects.Nodup) {σ : String → ObjectId}
    (hknown : ∀ o ∈ (p.eval σ).args, o.index < T.objects.length) :
    T.Names q.1 (q.2.map (T.valuesUnder σ)) (p.eval σ) := by
  refine ⟨h.relation, ?_⟩
  have hknown : ∀ term ∈ p.args, (term.eval σ).index < T.objects.length := fun term hterm =>
    hknown _ (List.mem_map_of_mem hterm)
  rw [Pattern.eval, Pattern.evalArgs, List.forall₂_map_left_iff, List.forall₂_map_right_iff]
  have hargs := (List.forall₂_and_left _ _).mpr ⟨hknown, List.Forall₂.flip h.args⟩
  refine List.Forall₂.flip (hargs.imp ?_)
  rintro term x ⟨hlt, hread⟩
  change Term.Reads T x term at hread
  change T.objectId? (T.valuesUnder σ x) = some (term.eval σ)
  rw [Term.Reads] at hread
  rw [valuesUnder]
  split at hread
  next hx =>
    subst hread
    rw [if_pos hx]
    exact objectId?_object hobjects hlt
  next hx =>
    obtain ⟨id, hid, rfl⟩ := hread
    rwa [if_neg hx]

/-- A set that covers all runs and in which only typed instances are applicable. -/
structure IsGrounded (t : Task) (K : Set Mention) : Prop extends Covers t K where
  typed_action : ∀ i args, (.action i, args) ∈ K →
    ∃ a, t.actions[i]? = some a ∧ t.Typed a.parameters args
  typed_axiom : ∀ i args, (.derivation i, args) ∈ K →
    ∃ x, t.axioms[i]? = some x ∧ t.Typed x.parameters args

namespace Program

variable {p : Program} {raw result : List GroundAtom × List Rule} {aux : List SplitRule}
  {object equal : RelationId} {guards : List ObjectId}

section Equality

variable {facts : List GroundAtom} {rules : List Rule} (hraw : IsRaw t T facts rules)
  (hn : IsNormalized T object equal guards facts rules result) (ht : t.IsNormal)
include hraw ht

theorem IsRaw.exists_equality {o : ObjectId} {x : String} (hx : x ∈ t.objects.map (·.name))
    (ho : T.objectId? x = some o) (hequal : T.relationId? (.predicate .equal) = some equal) :
    ⟨equal, [o, o]⟩ ∈ facts := by
  obtain ⟨g, hg, hnames⟩ := exists_of_mem_forall₂ hraw.facts
    (List.mem_append_right _ ((ht.equal [x, x]).mpr ⟨x, hx, rfl⟩))
  have hnames' : T.Names (.predicate .equal) [x, x] ⟨equal, [o, o]⟩ :=
    ⟨hequal, .cons ho (.cons ho .nil)⟩
  exact hnames'.unique hnames ▸ hg

include hn

/-- The facts relate each object that they mention to itself. -/
theorem IsNormalized.exists_equality {g : GroundAtom} (hg : g ∈ facts) {o : ObjectId}
    (ho : o ∈ g.args) : ⟨equal, [o, o]⟩ ∈ facts := by
  obtain ⟨a, ha, hnames⟩ := exists_of_mem_forall₂_right hraw.facts hg
  obtain ⟨x, hx, hid⟩ := exists_of_mem_forall₂_right hnames.args ho
  exact hraw.exists_equality ht (args_mem_objects ht ha x hx) hid hn.equalId

/-- The facts do not relate different objects. -/
theorem IsNormalized.eq_of_equality {o o' : ObjectId} (hmem : ⟨equal, [o, o']⟩ ∈ facts) :
    o = o' := by
  obtain ⟨⟨predicate, args⟩, ha, hnames⟩ := exists_of_mem_forall₂_right hraw.facts hmem
  obtain rfl : predicate = .equal :=
    Relation.predicate.inj (eq_of_relationId? hnames.relation hn.equalId)
  obtain ⟨x, -, rfl⟩ : ∃ x ∈ t.objects.map (·.name), args = [x, x] := by
    refine (ht.equal args).mp ((List.mem_append.mp ha).resolve_left fun htype => ?_)
    obtain ⟨o, -, htype⟩ := List.mem_flatMap.mp htype
    obtain ⟨type, -, he⟩ := List.mem_map.mp htype
    cases he
  obtain ⟨-, hargs⟩ := hnames
  cases hargs with
  | cons ho hrest =>
      cases hrest with
      | cons ho' _ => exact Option.some.inj (ho.symm.trans ho')

theorem IsNormalized.hasEquality : HasEquality equal
    (facts ++ guards.map fun o => ⟨object, [o]⟩) (rules.map (guardHead object)) := by
  have hdistinct : object ≠ equal := by
    rintro rfl
    cases eq_of_relationId? hn.objectId hn.equalId
  refine ⟨fun o o' hmem => ?_, fun g hg o ho => List.mem_append_left _ ?_,
    fun r' hr' o ho => List.mem_append_left _ ?_, fun r' hr' => ?_⟩
  · rcases List.mem_append.mp hmem with hmem | hmem
    · exact hn.eq_of_equality hraw ht hmem
    · obtain ⟨_, -, he⟩ := List.mem_map.mp hmem
      exact absurd (congrArg GroundAtom.relation he) hdistinct
  · rcases List.mem_append.mp hg with hg | hg
    · exact hn.exists_equality hraw ht hg ho
    · obtain ⟨o', ho', rfl⟩ := List.mem_map.mp hg
      obtain rfl := List.mem_singleton.mp ho
      obtain ⟨g, hg, hmem⟩ := hn.mentioned o ho'
      exact hn.exists_equality hraw ht hg hmem
  · obtain ⟨r, hr, rfl⟩ := List.mem_map.mp hr'
    obtain ⟨c, hc, hread⟩ := exists_of_mem_forall₂_right hraw.rules hr
    obtain ⟨x, hx, hterm⟩ := exists_of_mem_forall₂_right hread.head.args ho
    rw [Term.Reads] at hterm
    split at hterm
    next => cases hterm
    next hv =>
      obtain ⟨id, hid, he⟩ := hterm
      cases he
      exact hraw.exists_equality ht (mem_objects_of_mem_head ht hc hx (Bool.eq_false_iff.mpr hv))
        hid hn.equalId
  · obtain ⟨r, hr, rfl⟩ := List.mem_map.mp hr'
    obtain ⟨c, hc, hread⟩ := exists_of_mem_forall₂_right hraw.rules hr
    intro he
    have hid := hread.head.relation
    rw [show r.head.relation = equal from he] at hid
    obtain ⟨name, hname⟩ := named_of_mem_head ht hc (eq_of_relationId? hid hn.equalId)
    cases hname

end Equality

/-- What follows from the facts and the clauses of a task. -/
def groundModel (object : RelationId) (guards : List ObjectId)
    (raw : List GroundAtom × List Rule) : Set GroundAtom :=
  leastModel {g | g ∈ raw.1 ++ guards.map fun o => ⟨object, [o]⟩}
    {r | r ∈ raw.2.map (guardHead object)}

section Reading

variable (hraw : IsRaw t T raw.1 raw.2) (hn : IsNormalized T object equal guards raw.1 raw.2 result)
include hraw hn

theorem index_lt_of_mem_groundModel {g : GroundAtom} (hg : g ∈ groundModel object guards raw) :
    ∀ o ∈ g.args, o.index < T.objects.length := by
  induction hg with
  | fact hg =>
      rcases List.mem_append.mp hg with hg | hg
      · obtain ⟨a, -, hnames⟩ := exists_of_mem_forall₂_right hraw.facts hg
        exact hnames.index_lt
      · obtain ⟨o, ho, rfl⟩ := List.mem_map.mp hg
        exact List.forall_mem_singleton.mpr (hn.known o ho)
  | @rule r' hr' σ _ ih =>
      obtain ⟨r, hr, rfl⟩ := List.mem_map.mp hr'
      intro o ho
      obtain ⟨term, hterm, rfl⟩ := List.mem_map.mp ho
      cases term with
      | «variable» v =>
          obtain ⟨q, hq, hv⟩ := isBound_guardHead v (Pattern.mem_vars.mpr hterm)
          exact ih q hq _ (List.mem_map_of_mem (f := fun x : Term => x.eval σ) (Pattern.mem_vars.mp hv))
      | object id =>
          obtain ⟨c, -, hread⟩ := exists_of_mem_forall₂_right hraw.rules hr
          obtain ⟨x, -, hx⟩ := exists_of_mem_forall₂_right hread.head.args hterm
          rw [Term.Reads] at hx
          split at hx
          · cases hx
          · obtain ⟨id', hid', he⟩ := hx
            cases he
            exact (List.getElem?_eq_some_iff.mp (getElem?_of_objectId? hid')).1

/-- What follows is initially true, belongs to an object or follows by a clause. -/
theorem of_mem_reading_groundModel (hobjects : T.objects.Nodup) {q : Mention}
    (hq : q ∈ T.reading (groundModel object guards raw)) :
    (∃ a ∈ t.typeAtoms ++ t.init, mention a = q) ∨ q.1 = .object ∨
      ∃ c ∈ clauses t, ∃ values : String → String, (c.head.1, c.head.2.map values) = q ∧
        ∀ b ∈ c.body, (b.1, b.2.map values) ∈ T.reading (groundModel object guards raw) := by
  obtain ⟨g, hg, hnames⟩ := hq
  have hknown := index_lt_of_mem_groundModel hraw hn hg
  cases hg with
  | fact hg =>
      rcases List.mem_append.mp hg with hg | hg
      · obtain ⟨a, ha, hnames'⟩ := exists_of_mem_forall₂_right hraw.facts hg
        obtain ⟨hrelation, hargs⟩ := hnames'.inj hnames
        exact .inl ⟨a, ha, Prod.ext hrelation hargs⟩
      · obtain ⟨o, -, rfl⟩ := List.mem_map.mp hg
        exact .inr (.inl (eq_of_relationId? hnames.relation hn.objectId))
  | @rule r' hr' σ hbody =>
      obtain ⟨r, hr, rfl⟩ := List.mem_map.mp hr'
      obtain ⟨c, hc, hread⟩ := exists_of_mem_forall₂_right hraw.rules hr
      obtain ⟨hrelation, hargs⟩ := (hread.head.names_eval hobjects hknown).inj hnames
      refine .inr (.inr ⟨c, hc, T.valuesUnder σ, Prod.ext hrelation hargs, fun b hb => ?_⟩)
      obtain ⟨p, hp, hreads⟩ := exists_of_mem_forall₂ hread.body hb
      have hmem : p.eval σ ∈ groundModel object guards raw := hbody p (List.mem_append_left _ hp)
      exact ⟨_, hmem, hreads.names_eval hobjects (index_lt_of_mem_groundModel hraw hn hmem)⟩

/-- What is initially true follows, and the clauses of the task hold. -/
theorem covers_groundModel (ht : t.IsNormal) :
    Covers t (T.reading (groundModel object guards raw)) where
  facts a ha := by
    obtain ⟨g, hg, hnames⟩ := exists_of_mem_forall₂ hraw.facts ha
    exact ⟨g, .fact (List.mem_append_left _ hg), hnames⟩
  clauses c hc values hfix hhead hbody := by
    obtain ⟨r, hr, hread⟩ := exists_of_mem_forall₂ hraw.rules hc
    refine (hread.guardHead hn.objectId).holds (holds_leastModel (List.mem_map_of_mem hr)) hfix
      (fun x hx => hraw.objects _ (hhead x hx)) fun q hq => ?_
    rcases List.mem_append.mp hq with hq | hq
    · exact hbody q hq
    · obtain ⟨v, hv, rfl⟩ := List.mem_map.mp hq
      have hobject := hhead v (hread.head.of_mem_vars (mem_head_of_mem_unboundVariables hv)).2
      obtain ⟨o, ho⟩ := Option.isSome_iff_exists.mp (hraw.objects _ hobject)
      have hguard : o ∈ guards := hn.guarded r hr (List.ne_nil_of_mem hv) _
        (hraw.exists_equality ht hobject ho hn.equalId) o List.mem_cons_self
      exact ⟨⟨_, [o]⟩, .fact (List.mem_append_right _ (List.mem_map_of_mem hguard)), hn.objectId,
        .cons ho .nil⟩

/-- Objects are of the types that the program says they are. -/
theorem mem_objectsOf_of_mem_reading (hobjects : T.objects.Nodup) (ht : t.IsNormal)
    (hg : t.IsGroundable) {type x : String}
    (h : (.predicate (.type type), [x]) ∈ T.reading (groundModel object guards raw)) :
    x ∈ t.objectsOf type := by
  rcases of_mem_reading_groundModel hraw hn hobjects h with ⟨a, ha, he⟩ | he | ⟨c, hc, _, he, -⟩
  · obtain ⟨predicate, args⟩ := a
    cases he
    have ha : (⟨.type type, [x]⟩ : Atom) ∈ t.typeAtoms :=
      (List.mem_append.mp ha).elim id fun ha => hg.types _ ha type rfl
    obtain ⟨o, ho, hargs⟩ := Task.mem_typeAtoms.mp ha
    exact List.head_eq_of_cons_eq hargs ▸ ho
  · cases he
  · obtain ⟨name, hname⟩ := named_of_mem_head ht hc (congrArg Prod.fst he)
    cases hname

/-- Applicable instances have arguments of the types of the parameters. -/
theorem typed_of_applicabilityClause (hobjects : T.objects.Nodup) (ht : t.IsNormal)
    (hg : t.IsGroundable) {r : Relation} {ps : List Parameter} {c : Condition}
    {values : String → String}
    (hbody : ∀ b ∈ (applicabilityClause r ps c).body,
      (b.1, b.2.map values) ∈ T.reading (groundModel object guards raw)) :
    t.Typed ps ((ps.map (·.name)).map values) := by
  rw [Task.Typed, TypedBy, List.map_map, List.forall₂_map_right_iff, List.forall₂_same]
  intro p hp
  exact mem_objectsOf_of_mem_reading hraw hn hobjects ht hg
    (hbody _ (List.mem_append_left _ (List.mem_map_of_mem hp)))

end Reading

namespace IsBuiltFrom

variable (h : IsBuiltFrom t p T raw result aux) (ht : t.IsNormal) (hg : t.IsGroundable)
include h ht hg

theorem isFresh_guardHead {r : Rule} (hr : r ∈ raw.2) : IsFresh (guardHead object r) := by
  obtain ⟨c, hc, hread⟩ := exists_of_mem_forall₂_right h.isRaw.rules hr
  exact ((isPlain_of_mem_clauses ht hg hc).mono fun v hv =>
    hread.of_mentions (mentions_of_guardHead hv)).isFresh

theorem isWellFormed : p.IsWellFormed (arityWith (arityIn t T) aux) where
  toIsTyped := h.isTyped ht
  safe x hx := by
    obtain ⟨object, equal, guards, hn⟩ := h.normalized
    have hnodup : ∀ r ∈ result.2, ∀ q ∈ r.body, q.vars.Nodup := by
      intro r' hr'
      obtain ⟨⟨r, hr, rfl⟩, -⟩ := hn.mem_rules_iff.mp hr'
      exact (List.forall_mem_cons.mp (nodup_separateRepeated (h.isFresh_guardHead ht hg hr))).2
    rcases h.splits.of_mem x hx with hx | ⟨r, hr, hlast⟩
    · refine h.splits.isSafe (fun q hq => ?_) x hx
      obtain ⟨r, hr, hq⟩ := List.mem_flatMap.mp hq
      exact hnodup r hr q hq
    · refine hlast.last_proper.isGuarded.isSafe fun q hq => ?_
      rcases hlast.last_body q hq with hq | ⟨y, hy, rfl⟩
      · exact hnodup r hr q hq
      · exact h.splits.distinct y hy

/-- The program means what the facts and the clauses of the task do. -/
theorem mem_meaning_iff (hn : IsNormalized T object equal guards raw.1 raw.2 result) {a : GroundAtom}
    (ha : a.relation.index < T.relations.length) :
    a ∈ p.meaning ↔ a ∈ groundModel object guards raw := by
  have hseparated := leastModel_separated (hn.hasEquality h.isRaw ht)
    (List.forall_mem_map.mpr fun r hr => h.isFresh_guardHead ht hg hr)
    (List.forall_mem_map.mpr fun r _ => isBound_guardHead)
  have hfacts : p.factSet = {a | a ∈ separatedFacts equal
      (raw.1 ++ guards.map fun o => ⟨object, [o]⟩) (raw.2.map (guardHead object))} := by
    rw [factSet, h.facts, hn.result]
  have hrules : result.2 = separatedRules equal (raw.2.map (guardHead object)) := by rw [hn.result]
  rw [groundModel, ← hseparated, ← hfacts, ← hrules]
  obtain ⟨hfacts, hrules⟩ := hn.isTyped (h.isTyped_facts ht) (h.isTyped_rules ht)
  refine ⟨fun hmem => h.splits.meaning_subset (fun g hg => ?_)
    (fun r hr q hq => (hrules r hr q hq).relation) hmem ha, fun hmem =>
      h.splits.subset_meaning hmem⟩
  exact (hfacts g (h.facts ▸ hg)).relation

/-- The atoms of the program that are not intermediate are read as what follows from the task. -/
theorem mem_reading_iff (hn : IsNormalized T object equal guards raw.1 raw.2 result) {q : Mention}
    (hq : q.1.isAuxiliary = false) :
    q ∈ T.reading (groundModel object guards raw) ↔
      ∃ g ∈ p.meaning, p.symbols.relation g.relation = q.1 ∧ g.args.map p.symbols.object = q.2 := by
  have hobject : ∀ id, T.object id = p.symbols.object id := fun id => by
    rw [SymbolTable.object, SymbolTable.object, h.symbols.objects_eq]
  have hnamed : ∀ {g : GroundAtom}, g ∈ groundModel object guards raw →
      g.relation.index < T.relations.length →
      T.Names (p.symbols.relation g.relation) (g.args.map p.symbols.object) g := by
    intro g hg hlt
    rw [h.symbols.relation_eq hlt, ← List.map_congr_left fun id _ => hobject id]
    exact names_of_index_lt h.relations_nodup h.objects_nodup hlt
      (index_lt_of_mem_groundModel h.isRaw hn hg)
  constructor
  · rintro ⟨g, hmem, hnames⟩
    have hlt := index_lt_of_relationId? hnames.relation
    obtain ⟨hr, hargs⟩ := (hnamed hmem hlt).inj hnames
    exact ⟨g, (h.mem_meaning_iff ht hg hn hlt).mpr hmem, hr, hargs⟩
  · rintro ⟨g, hmem, hr, hargs⟩
    have hlt := h.symbols.index_lt h.relations_nodup ((h.isWellFormed ht hg).relation_lt hmem)
      (hr ▸ hq)
    have hmem := (h.mem_meaning_iff ht hg hn hlt).mp hmem
    have hnames := hnamed hmem hlt
    rw [hr, hargs] at hnames
    exact ⟨g, hmem, hnames⟩

end IsBuiltFrom

/-- The model of the grounding program is a set that covers all runs. -/
theorem exists_isGrounded (ht : t.IsNormal) (hg : t.IsGroundable) {budget : Budget}
    {model : List GroundAtom} (hmodel : ((ofTask t).model budget).Yields model) :
    ∃ K, IsGrounded t K ∧ ∀ q : Mention, q.1.isAuxiliary = false → (q ∈ K ↔
      ∃ g ∈ model, (ofTask t).symbols.relation g.relation = q.1 ∧
        g.args.map (ofTask t).symbols.object = q.2) := by
  obtain ⟨T, raw, result, aux, hbuilt⟩ := exists_isBuiltFrom t
  obtain ⟨object, equal, guards, hn⟩ := hbuilt.normalized
  obtain ⟨-, hmem⟩ := mem_of_yields_model (hbuilt.isWellFormed ht hg) hbuilt.splits.isProper hmodel
  refine ⟨T.reading (groundModel object guards raw), {
    covers_groundModel hbuilt.isRaw hn ht with
    typed_action := fun i args h => ?_
    typed_axiom := fun i args h => ?_ }, fun q hq => ?_⟩
  · rcases of_mem_reading_groundModel hbuilt.isRaw hn hbuilt.objects_nodup h with
      ⟨a, -, he⟩ | he | ⟨c, hc, values, he, hbody⟩
    · cases he
    · cases he
    · cases isClauseOf_of_mem hc with
      | action ha =>
          cases he
          exact ⟨_, ha, typed_of_applicabilityClause hbuilt.isRaw hn hbuilt.objects_nodup ht hg
            hbody⟩
      | effect _ _ | derivation _ | head _ | goal => cases he
  · rcases of_mem_reading_groundModel hbuilt.isRaw hn hbuilt.objects_nodup h with
      ⟨a, -, he⟩ | he | ⟨c, hc, values, he, hbody⟩
    · cases he
    · cases he
    · cases isClauseOf_of_mem hc with
      | derivation hx =>
          cases he
          exact ⟨_, hx, typed_of_applicabilityClause hbuilt.isRaw hn hbuilt.objects_nodup ht hg
            hbody⟩
      | action _ | effect _ _ | head _ | goal => cases he
  · simp only [hbuilt.mem_reading_iff ht hg hn hq, hmem]

end Program
end Datalog
end FinitePlanning
