import FinitePlanning.Datalog.Program
import FinitePlanning.Proofs.Datalog.Semantics
import FinitePlanning.Proofs.Semantics.Values

/-!
Numbering of relations and objects, and the rules that mention them. Tables of symbols only grow, so
that what was numbered once has its number in all later tables.
-/

namespace FinitePlanning
namespace Datalog

namespace SymbolTable

variable {t t' T : SymbolTable} {r : Relation} {x : String}

/-- A table with more symbols, the old ones keeping their numbers. -/
structure Extends (t T : SymbolTable) : Prop where
  relations : t.relations <+: T.relations
  objects : t.objects <+: T.objects

theorem Extends.refl (t : SymbolTable) : t.Extends t := ⟨List.prefix_rfl, List.prefix_rfl⟩

theorem Extends.trans (h : t.Extends t') (h' : t'.Extends T) : t.Extends T :=
  ⟨h.relations.trans h'.relations, h.objects.trans h'.objects⟩

/-- Symbols are entered once, and none of them is an intermediate relation. -/
structure Grows (t T : SymbolTable) : Prop extends t.Extends T where
  relations_nodup : t.relations.Nodup → T.relations.Nodup
  objects_nodup : t.objects.Nodup → T.objects.Nodup
  auxiliary : ∀ r ∈ T.relations, r.isAuxiliary = true → r ∈ t.relations

theorem Grows.refl (t : SymbolTable) : t.Grows t := ⟨.refl t, id, id, fun _ hr _ => hr⟩

theorem Grows.trans (h : t.Grows t') (h' : t'.Grows T) : t.Grows T where
  toExtends := h.toExtends.trans h'.toExtends
  relations_nodup hn := h'.relations_nodup (h.relations_nodup hn)
  objects_nodup hn := h'.objects_nodup (h.objects_nodup hn)
  auxiliary r hr ha := h.auxiliary r (h'.auxiliary r hr ha) ha

theorem idxOf?_of_prefix {α : Type} [BEq α] {l l' : List α} {a : α} {i : Nat} (h : l <+: l')
    (hi : l.idxOf? a = some i) : l'.idxOf? a = some i := by
  obtain ⟨rest, rfl⟩ := h
  rw [List.idxOf?, List.findIdx?_append, ← List.idxOf?, hi]
  rfl

theorem Extends.relationId? {id : RelationId} (h : t.Extends T)
    (hr : t.relationId? r = some id) : T.relationId? r = some id := by
  obtain ⟨i, hi, rfl⟩ := Option.map_eq_some_iff.mp hr
  exact Option.map_eq_some_iff.mpr ⟨i, idxOf?_of_prefix h.relations hi, rfl⟩

theorem Extends.objectId? {id : ObjectId} (h : t.Extends T)
    (hx : t.objectId? x = some id) : T.objectId? x = some id := by
  obtain ⟨i, hi, rfl⟩ := Option.map_eq_some_iff.mp hx
  exact Option.map_eq_some_iff.mpr ⟨i, idxOf?_of_prefix h.objects hi, rfl⟩

/-- A ground atom stands for a relation and its arguments. -/
structure Names (t : SymbolTable) (r : Relation) (args : List String) (g : GroundAtom) : Prop where
  relation : t.relationId? r = some g.relation
  args : List.Forall₂ (fun x id => t.objectId? x = some id) args g.args

theorem mapM_eq_some_iff {α β : Type} {f : α → Option β} {l : List α} {bs : List β} :
    l.mapM f = some bs ↔ List.Forall₂ (fun a b => f a = some b) l bs := by
  refine ⟨forall₂_of_mapM_some, fun h => ?_⟩
  induction h with
  | nil => rfl
  | cons h _ ih => simp [List.mapM_cons, h, ih]

theorem Names.known {args : List String} {g : GroundAtom} (h : t.Names r args g) :
    ∀ x ∈ args, (t.objectId? x).isSome = true := by
  intro x hx
  obtain ⟨id, -, hid⟩ := exists_of_mem_forall₂ h.args hx
  exact Option.isSome_of_eq_some hid

theorem Names.unique {args : List String} {g g' : GroundAtom} (h : t.Names r args g)
    (h' : t.Names r args g') : g = g' := by
  cases g
  cases g'
  obtain rfl := Option.some.inj (h.relation.symm.trans h'.relation)
  obtain rfl := Option.some.inj ((mapM_eq_some_iff.mpr h.args).symm.trans (mapM_eq_some_iff.mpr h'.args))
  rfl

theorem groundAtom?_eq_some_iff {a : Atom} {g : GroundAtom} :
    t.groundAtom? a = some g ↔ t.Names (.predicate a.predicate) a.args g := by
  simp only [groundAtom?, Option.bind_eq_bind, Option.bind_eq_some_iff, mapM_eq_some_iff,
    Option.pure_def, Option.some.injEq]
  constructor
  · rintro ⟨id, hid, args, hargs, rfl⟩
    exact ⟨hid, hargs⟩
  · rintro ⟨hid, hargs⟩
    exact ⟨_, hid, _, hargs, rfl⟩

/-- The relations and arguments that the atoms of a set stand for. -/
def reading (t : SymbolTable) (M : Set GroundAtom) : Set (Relation × List String) :=
  {x | ∃ g ∈ M, t.Names x.1 x.2 g}

end SymbolTable

/-- What is numbered has a property in all later tables. -/
def Interns {α : Type} (m : Interning α) (P : SymbolTable → α → Prop) : Prop :=
  ∀ t, t.Grows (m.run t).2 ∧ ∀ T, (m.run t).2.Extends T → P T (m.run t).1

namespace Interns

variable {α β : Type} {m : Interning α} {P : SymbolTable → α → Prop} {Q : SymbolTable → β → Prop}

theorem mono {P' : SymbolTable → α → Prop} (h : Interns m P) (hP : ∀ T a, P T a → P' T a) :
    Interns m P' :=
  fun t => ⟨(h t).1, fun T hT => hP T _ ((h t).2 T hT)⟩

theorem pure {a : α} (h : ∀ T, P T a) : Interns (Pure.pure a) P :=
  fun t => ⟨.refl t, fun T _ => h T⟩

theorem bind {f : α → Interning β} (h : Interns m P)
    (hf : ∀ a, Interns (f a) fun T b => P T a → Q T b) : Interns (m >>= f) Q := by
  intro t
  obtain ⟨hext, hP⟩ := h t
  obtain ⟨hext', hQ⟩ := hf (m.run t).1 (m.run t).2
  exact ⟨hext.trans hext', fun T hT => hQ T hT (hP T (hext'.toExtends.trans hT))⟩

theorem mapM {γ : Type} {f : γ → Interning β} {R : SymbolTable → γ → β → Prop} {l : List γ}
    (h : ∀ c ∈ l, Interns (f c) fun T b => R T c b) :
    Interns (l.mapM f) fun T bs => List.Forall₂ (R T) l bs := by
  induction l with
  | nil => exact .pure fun _ => .nil
  | cons c l ih =>
      rw [List.forall_mem_cons] at h
      rw [List.mapM_cons]
      refine h.1.bind fun b => (ih h.2).bind fun bs => .pure fun T hbs hb => ?_
      exact .cons hb hbs

theorem map {f : α → β} (h : Interns m P) : Interns (f <$> m) fun T b => ∃ a, P T a ∧ f a = b := by
  rw [← bind_pure_comp]
  exact h.bind fun a => .pure fun T ha => ⟨a, ha, rfl⟩

theorem forM {γ : Type} {f : γ → Interning Unit} {R : SymbolTable → γ → Prop} {l : List γ}
    (h : ∀ c ∈ l, Interns (f c) fun T _ => R T c) :
    Interns (l.forM f) fun T _ => ∀ c ∈ l, R T c := by
  induction l with
  | nil => exact .pure fun _ => nofun
  | cons c l ih =>
      rw [List.forall_mem_cons] at h
      refine h.1.bind fun _ => (ih h.2).mono fun T _ hl hc => ?_
      exact List.forall_mem_cons.mpr ⟨hc, hl⟩

end Interns

namespace SymbolTable

theorem idxOf?_append_self {α : Type} [BEq α] [LawfulBEq α] {l : List α} {a : α}
    (h : l.idxOf? a = none) : (l ++ [a]).idxOf? a = some l.length := by
  rw [List.idxOf?, List.findIdx?_append, ← List.idxOf?, h]
  simp

theorem run_internRelation (t : SymbolTable) (r : Relation) :
    (internRelation r).run t = match t.relationId? r with
      | some id => (id, t)
      | none => (⟨t.relations.length⟩, { t with relations := t.relations ++ [r] }) := by
  cases h : t.relationId? r <;> simp [internRelation, h] <;> rfl

theorem run_internObject (t : SymbolTable) (x : String) :
    (internObject x).run t = match t.objectId? x with
      | some id => (id, t)
      | none => (⟨t.objects.length⟩, { t with objects := t.objects ++ [x] }) := by
  cases h : t.objectId? x <;> simp [internObject, h] <;> rfl

theorem interns_relation {r : Relation} (hr : r.isAuxiliary = false) :
    Interns (internRelation r) fun T id => T.relationId? r = some id := by
  intro t
  rw [run_internRelation]
  cases h : t.relationId? r with
  | some id => exact ⟨.refl t, fun T hT => hT.relationId? h⟩
  | none =>
      have hnone : t.relations.idxOf? r = none := Option.map_eq_none_iff.mp h
      refine ⟨⟨⟨List.prefix_append _ _, List.prefix_rfl⟩,
        fun hn => List.concat_eq_append ▸ hn.concat (List.idxOf?_eq_none_iff.mp hnone), id, fun q hq hqa => ?_⟩,
        fun T hT => hT.relationId? ?_⟩
      · rcases List.mem_append.mp hq with hq | hq
        · exact hq
        · rw [List.mem_singleton.mp hq, hr] at hqa
          cases hqa
      simp [relationId?, idxOf?_append_self hnone]

theorem interns_object (x : String) :
    Interns (internObject x) fun T id => T.objectId? x = some id := by
  intro t
  rw [run_internObject]
  cases h : t.objectId? x with
  | some id => exact ⟨.refl t, fun T hT => hT.objectId? h⟩
  | none =>
      have hnone : t.objects.idxOf? x = none := Option.map_eq_none_iff.mp h
      refine ⟨⟨⟨List.prefix_rfl, List.prefix_append _ _⟩, id,
        fun hn => List.concat_eq_append ▸ hn.concat (List.idxOf?_eq_none_iff.mp hnone), fun _ hq _ => hq⟩,
        fun T hT => hT.objectId? ?_⟩
      simp [objectId?, idxOf?_append_self hnone]

end SymbolTable
end Datalog

/-!
### Rules

The rules of the grounding program in terms of the relations and names that they mention.
-/
namespace Datalog

open SymbolTable

/-- A relation applied to variables and objects of a task. -/
abbrev Mention := Relation × List String

/-- A rule before its relations and objects are numbered. -/
structure Clause where
  head : Mention
  body : List Mention

/-- A term stands for a name: variables for themselves and objects for their numbers. -/
def Term.Reads (T : SymbolTable) (x : String) (term : Term) : Prop :=
  if isVariable x = true then term = .variable x
  else ∃ id, T.objectId? x = some id ∧ term = .object id

structure Pattern.Reads (T : SymbolTable) (q : Mention) (p : Pattern) : Prop where
  relation : T.relationId? q.1 = some p.relation
  args : List.Forall₂ (Term.Reads T) q.2 p.args

structure Clause.Reads (T : SymbolTable) (c : Clause) (r : Rule) : Prop where
  head : Pattern.Reads T c.head r.head
  body : List.Forall₂ (Pattern.Reads T) c.body r.body

theorem Term.Reads.objectId? {T : SymbolTable} {x : String} {term : Term} (h : term.Reads T x)
    {values : String → String} (hfix : FixesObjects values)
    (hknown : (T.objectId? (values x)).isSome = true) : T.objectId? (values x) =
      some (term.eval fun v => (T.objectId? (values v)).getD default) := by
  rw [Term.Reads] at h
  split at h
  next =>
    subst h
    obtain ⟨id, hid⟩ := Option.isSome_iff_exists.mp hknown
    simp [Term.eval, hid]
  next hx =>
    obtain ⟨id, hid, rfl⟩ := h
    rw [hfix x (Bool.eq_false_iff.mpr hx), hid]
    rfl

/-- The atom that an atom of a rule stands for under values of the variables. -/
theorem Pattern.Reads.names {T : SymbolTable} {q : Mention} {p : Pattern} (h : p.Reads T q)
    {values : String → String} (hfix : FixesObjects values)
    (hknown : ∀ x ∈ q.2, (T.objectId? (values x)).isSome = true) :
    T.Names q.1 (q.2.map values) (p.eval fun v => (T.objectId? (values v)).getD default) := by
  refine ⟨h.relation, ?_⟩
  rw [Pattern.eval, Pattern.evalArgs, List.forall₂_map_left_iff, List.forall₂_map_right_iff]
  refine ((List.forall₂_and_left _ _).mpr ⟨hknown, h.args⟩).imp ?_
  exact fun x term h => h.2.objectId? hfix h.1

/-- A rule that holds in a set gives the instances of its clause. -/
theorem Clause.Reads.holds {T : SymbolTable} {c : Clause} {r : Rule} (h : c.Reads T r)
    {M : Set GroundAtom} (hr : r.Holds M) {values : String → String} (hfix : FixesObjects values)
    (hknown : ∀ x ∈ c.head.2, (T.objectId? (values x)).isSome = true)
    (hbody : ∀ q ∈ c.body, (q.1, q.2.map values) ∈ T.reading M) :
    (c.head.1, c.head.2.map values) ∈ T.reading M := by
  refine ⟨_, hr _ fun p hp => ?_, h.head.names hfix hknown⟩
  obtain ⟨q, hq, hread⟩ := exists_of_mem_forall₂_right h.body hp
  obtain ⟨g, hg, hnames⟩ := hbody q hq
  have hknown : ∀ x ∈ q.2, (T.objectId? (values x)).isSome = true :=
    fun x hx => hnames.known _ (List.mem_map_of_mem hx)
  rwa [(hread.names hfix hknown).unique hnames]

/-! ### The clauses of a task -/

/-- An atom of a task. -/
def mention (a : Atom) : Mention := (.predicate a.predicate, a.args)

/-- The parameters belong to their types. -/
def typeMentions (ps : List Parameter) : List Mention := ps.map fun p => mention p.typeAtom

/-- The literals that are not negated. -/
def positiveMentions (c : Condition) : List Mention :=
  (c.literals.filter (!·.negated)).map fun l => mention l.atom

def applicabilityClause (r : Relation) (ps : List Parameter) (c : Condition) : Clause :=
  ⟨(r, ps.map (·.name)), typeMentions ps ++ positiveMentions c⟩

def effectClause (applicable : Mention) (e : Effect) : Clause :=
  ⟨mention e.literal.atom, applicable :: typeMentions e.parameters ++ positiveMentions e.condition⟩

def actionClauses (a : Action) (index : Nat) : List Clause :=
  let applicability := applicabilityClause (.action index) a.parameters a.precondition
  applicability :: (a.effects.filter (!·.literal.negated)).map (effectClause applicability.head)

def axiomClauses (a : Axiom) (index : Nat) : List Clause :=
  let applicability := applicabilityClause (.derivation index) a.parameters a.condition
  [applicability,
    ⟨(.predicate (.named a.name), a.externalParameters.map (·.name)), [applicability.head]⟩]

def clauses (t : Task) : List Clause :=
  (t.actions.zipIdx.map fun (a, i) => actionClauses a i).flatten
    ++ (t.axioms.zipIdx.map fun (a, i) => axiomClauses a i).flatten
    ++ [⟨(.goalReachable, []), positiveMentions t.goal⟩]

namespace Program

theorem interns_factOf (a : Atom) :
    Interns (factOf a) fun T g => T.Names (.predicate a.predicate) a.args g :=
  (interns_relation rfl).bind fun _ =>
    (Interns.mapM fun x _ => interns_object x).bind fun _ => .pure fun _ hargs hid => ⟨hid, hargs⟩

theorem interns_termOf (x : String) : Interns (termOf x) fun T term => term.Reads T x := by
  rw [termOf]
  split
  next hx => exact .pure fun T => by simp [Term.Reads, hx]
  next hx =>
    refine (interns_object x).bind fun id => .pure fun T hid => ?_
    rw [Term.Reads, if_neg hx]
    exact ⟨id, hid, rfl⟩

theorem interns_patternOf {r : Relation} (hr : r.isAuxiliary = false) (args : List String) :
    Interns (patternOf r args) fun T p => p.Reads T (r, args) :=
  (interns_relation hr).bind fun _ =>
    (Interns.mapM fun x _ => interns_termOf x).bind fun _ => .pure fun _ hargs hid => ⟨hid, hargs⟩

theorem interns_typeConditions (ps : List Parameter) : Interns (typeConditions ps) fun T qs =>
    List.Forall₂ (Pattern.Reads T) (typeMentions ps) qs :=
  (Interns.mapM fun p _ => interns_patternOf rfl [p.name]).mono fun _ _ h =>
    List.forall₂_map_left_iff.mpr h

theorem interns_positiveConditions (c : Condition) : Interns (positiveConditions c) fun T qs =>
    List.Forall₂ (Pattern.Reads T) (positiveMentions c) qs :=
  (Interns.mapM fun l _ => interns_patternOf rfl l.atom.args).mono fun _ _ h =>
    List.forall₂_map_left_iff.mpr h

theorem interns_applicabilityRule {r : Relation} (hr : r.isAuxiliary = false) (ps : List Parameter) (c : Condition) :
    Interns (applicabilityRule r ps c) fun T rule => (applicabilityClause r ps c).Reads T rule :=
  (interns_patternOf hr _).bind fun _ => (interns_typeConditions ps).bind fun _ =>
    (interns_positiveConditions c).bind fun _ => .pure fun _ hconditions htypes hhead =>
      ⟨hhead, List.rel_append htypes hconditions⟩

theorem interns_effectRules {applicable : Mention} {p : Pattern} (effects : List Effect) :
    Interns (effectRules p effects) fun T rules => p.Reads T applicable →
      List.Forall₂ (Clause.Reads T)
        ((effects.filter (!·.literal.negated)).map (effectClause applicable)) rules := by
  have heffect : ∀ e ∈ effects.filter (!·.literal.negated), Interns (do
      let types ← typeConditions e.parameters
      let conditions ← positiveConditions e.condition
      let head ← patternOf (.predicate e.literal.atom.predicate) e.literal.atom.args
      return { head, body := p :: types ++ conditions : Rule }) fun T rule =>
        p.Reads T applicable → (effectClause applicable e).Reads T rule := fun e _ =>
    (interns_typeConditions e.parameters).bind fun _ =>
      (interns_positiveConditions e.condition).bind fun _ =>
        (interns_patternOf rfl e.literal.atom.args).bind fun _ => .pure
          fun _ hhead hconditions htypes hp => ⟨hhead, .cons hp (List.rel_append htypes hconditions)⟩
  refine (Interns.mapM heffect).mono fun T rules h hp => ?_
  exact List.forall₂_map_left_iff.mpr (h.imp fun _ _ hr => hr hp)

theorem interns_actionRules (a : Action) (index : Nat) : Interns (actionRules a index) fun T rules =>
    List.Forall₂ (Clause.Reads T) (actionClauses a index) rules :=
  (interns_applicabilityRule rfl _ _).bind fun _ => (interns_effectRules a.effects).bind fun _ =>
    .pure fun _ heffects happlicable => .cons happlicable (heffects happlicable.head)

theorem interns_axiomRules (a : Axiom) (index : Nat) : Interns (axiomRules a index) fun T rules =>
    List.Forall₂ (Clause.Reads T) (axiomClauses a index) rules :=
  (interns_applicabilityRule rfl _ _).bind fun _ => (interns_patternOf rfl _).bind fun _ =>
    .pure fun _ hhead happlicable =>
      .cons happlicable (.cons ⟨hhead, .cons happlicable.head .nil⟩ .nil)

/-- The rules of a task are those of its clauses. -/
theorem interns_explorationRules (t : Task) : Interns (explorationRules t) fun T rules =>
    List.Forall₂ (Clause.Reads T) (clauses t) rules :=
  (Interns.mapM fun x _ => interns_actionRules x.1 x.2).bind fun _ =>
    (Interns.mapM fun x _ => interns_axiomRules x.1 x.2).bind fun _ =>
      (interns_positiveConditions t.goal).bind fun _ => (interns_patternOf rfl _).bind fun _ =>
        .pure fun _ hhead hgoal haxioms hactions =>
          List.rel_append (List.rel_append (List.rel_flatten (List.forall₂_map_left_iff.mpr hactions))
            (List.rel_flatten (List.forall₂_map_left_iff.mpr haxioms)))
            (.cons ⟨hhead, hgoal⟩ .nil)

/-- The facts and rules of a task before the rules are split. -/
def rawRules (t : Task) : Interning (List GroundAtom × List Rule) := do
  t.objects.forM fun o => discard (internObject o.name)
  let facts ← (t.typeAtoms ++ t.init).mapM factOf
  let rules ← explorationRules t
  return (facts, rules)

structure IsRaw (t : Task) (T : SymbolTable) (facts : List GroundAtom) (rules : List Rule) :
    Prop where
  objects : ∀ x ∈ t.objects.map (·.name), (T.objectId? x).isSome = true
  facts : List.Forall₂ (fun a g => T.Names (.predicate a.predicate) a.args g)
    (t.typeAtoms ++ t.init) facts
  rules : List.Forall₂ (Clause.Reads T) (clauses t) rules

theorem interns_rawRules (t : Task) :
    Interns (rawRules t) fun T raw => IsRaw t T raw.1 raw.2 := by
  have hobjects : Interns (t.objects.forM fun o => discard (internObject o.name)) fun T _ =>
      ∀ x ∈ t.objects.map (·.name), (T.objectId? x).isSome = true := by
    refine (Interns.forM fun o _ => (interns_object o.name).map.mono fun T _ h =>
      (Option.isSome_of_eq_some h.choose_spec.1)).mono fun T _ h => ?_
    exact List.forall_mem_map.mpr h
  exact hobjects.bind fun _ => (Interns.mapM fun a _ => interns_factOf a).bind fun _ =>
    (interns_explorationRules t).bind fun _ => .pure fun _ hrules hfacts hobjects =>
      ⟨hobjects, hfacts, hrules⟩

/-- A program whose rules have not been split. -/
structure RawProgram where
  symbols : SymbolTable
  facts : List GroundAtom
  rules : List Rule

/-- The grounding program of a task before its rules are split. -/
def rawProgram (t : Task) : RawProgram :=
  let raw := Id.run ((rawRules t).run {})
  ⟨raw.2, raw.1.1, raw.1.2⟩

theorem isRaw_rawProgram (t : Task) :
    IsRaw t (rawProgram t).symbols (rawProgram t).facts (rawProgram t).rules :=
  (interns_rawRules t {}).2 _ (.refl _)

/-- The grounding program splits the raw rules. -/
theorem ofTask_eq (t : Task) : ofTask t =
    (let ((facts, rules), symbols) :=
      Id.run ((rawRules t >>= fun (facts, rules) => normalizeRules facts rules).run {})
    let (rules, symbols) := splitRules symbols rules
    { symbols, facts, rules }) := by
  simp only [ofTask, rawRules, bind_assoc, pure_bind]

end Program

end Datalog
end FinitePlanning
