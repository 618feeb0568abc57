import FinitePlanning.Proofs.Elaboration.Task
import FinitePlanning.Proofs.Exploration.Normalization
import FinitePlanning.Proofs.Exploration.Refinement
import FinitePlanning.Proofs.NormalForm.Shape

/-!
Which objects are of a type. The hierarchy, the lists of objects and the type atoms agree. A problem
may assert further type atoms as initial facts. Conditions and the parameters of actions and axioms
take these into account, the variables of effects do not.
-/

namespace FinitePlanning

/-- A fact that says that an object is of a type. -/
def Sexpr.IsTypeFact (type o : String) (fact : Sexpr) : Prop :=
  ∃ head arg : Symbol, ∃ span, fact = .list [.atom head, .atom arg] span ∧
    head.name = type ∧ arg.name = o

/-- A fact asserts that an object is of a type, where no predicate has the name of the type. -/
def Task.IsAsserted (t : Task) (facts : List Sexpr) (type o : String) : Prop :=
  t.predicate? type = none ∧ ∃ fact ∈ facts, fact.IsTypeFact type o

/-! ### Type atoms of the initial state -/

namespace Elaboration

variable {d : Declarations} {s s' : ElaborationState} {fact : Sexpr} {facts : List Sexpr}
  {type o : String} {a : Atom} {i i' : InitialState}

theorem term_eq_ok {e : Sexpr} {x : String} (h : term d [] e = .ok x) :
    ∃ symbol : Symbol, e = .atom symbol ∧ symbol.name = x := by
  cases e with
  | list es span => cases h
  | atom symbol =>
      rw [term] at h
      dsimp only [Sexpr.atom?] at h
      split at h
      · cases h
      · split at h
        · cases h
          exact ⟨symbol, rfl, rfl⟩
        · cases h

/-- Only type facts are read as type atoms. -/
theorem isTypeFact_of_reads_atom (h : Reads (atom d [] fact) s ⟨.type type, [o]⟩ s') :
    fact.IsTypeFact type o ∧ d.denotes type = .type type := by
  obtain ⟨head, es, hhead, -, hpredicate, hargs, -⟩ := reads_atom h
  obtain ⟨span, rfl⟩ := of_headed hhead
  have hname : head.name = type := by
    rw [Declarations.denotes] at hpredicate
    split at hpredicate
    · cases hpredicate
    · split at hpredicate
      · cases hpredicate
      · exact (Predicate.type.inj hpredicate).symm
  cases hargs with
  | cons harg hrest =>
      cases hrest
      obtain ⟨arg, rfl, hobject⟩ := term_eq_ok harg
      exact ⟨⟨head, arg, span, rfl, hname, hobject⟩, hname ▸ hpredicate.symm⟩

/-- Type facts are read as atoms of what the type denotes. -/
theorem eq_of_reads_atom (hfact : fact.IsTypeFact type o) (h : Reads (atom d [] fact) s a s') :
    a = ⟨d.denotes type, [o]⟩ ∧ type ≠ "=" := by
  obtain ⟨head, arg, span, rfl, rfl, rfl⟩ := hfact
  obtain ⟨head', es, hhead, harity, hpredicate, hargs, -⟩ := reads_atom h
  obtain ⟨span', hlist⟩ := of_headed hhead
  cases hlist
  obtain ⟨predicate, args⟩ := a
  cases hargs with
  | cons harg hrest =>
      cases hrest
      obtain ⟨symbol, hsymbol, rfl⟩ := term_eq_ok harg
      cases hsymbol
      refine ⟨congrArg (Atom.mk · _) hpredicate, fun hequal => ?_⟩
      rw [arityOf, if_pos hequal] at harity
      cases harity

theorem mem_atoms_of_isTypeFact (hfact : fact.IsTypeFact type o) (hi : i.ListsFacts)
    (h : Reads (i.add d fact) s i' s') : ⟨d.denotes type, [o]⟩ ∈ i'.atoms ∧ type ≠ "=" := by
  have hlists := hi.add h
  rcases InitialState.of_add h with ⟨-, -, hother⟩ | ⟨a, q, ha, -, hpositive, -⟩
  · obtain ⟨head, arg, span, rfl, -⟩ := hfact
    rcases hother with ⟨term, value, hargs⟩ | ⟨e, a, q, hargs, hread⟩
    · simp [Sexpr.arguments?] at hargs
    · -- a name is no atom that could be negated
      have he : .atom arg = e := by
        simpa [Sexpr.arguments?] using (Option.ite_none_right_eq_some.mp hargs).2
      obtain ⟨_, _, hhead, -⟩ := reads_atom hread
      obtain ⟨_, hlist⟩ := of_headed hhead
      cases he.trans hlist
  · obtain ⟨rfl, hne⟩ := eq_of_reads_atom hfact ha
    refine ⟨hlists _ ?_, hne⟩
    rw [hpositive, List.lookup_cons_self]
    rfl

theorem mem_atoms_of_initialState (h : Reads (initialState d facts) s i s') (hmem : fact ∈ facts)
    (hfact : fact.IsTypeFact type o) : ⟨d.denotes type, [o]⟩ ∈ i.atoms ∧ type ≠ "=" := by
  obtain ⟨_, hread⟩ := exists_reads_of_initialState h
  refine foldlM_reaches (f := InitialState.add d) (P := InitialState.ListsFacts)
    (Q := fun i => ⟨d.denotes type, [o]⟩ ∈ i.atoms ∧ type ≠ "=") hmem
    (fun _ _ _ _ _ hi hadd => hi.add hadd)
    (fun _ _ _ _ _ hi hadd => ⟨InitialState.mem_atoms_add hadd hi.1, hi.2⟩)
    (fun _ _ _ _ hi hadd => mem_atoms_of_isTypeFact hfact hi hadd) ?_ hread
  exact fun a ha => absurd ha (by simp)

end Elaboration

namespace Task

open Elaboration

variable {t t' : Task} {type : String} {domain : Pddl.Domain} {problem : Pddl.Problem}

theorem denotes_eq_type_iff :
    t.declarations.denotes type = .type type ↔ type ≠ "=" ∧ t.predicate? type = none := by
  have hlookup : (t.declarations.predicates.lookup type).isSome = false ↔
      t.predicate? type = none := by
    rw [Option.isSome_eq_false_iff, Option.isNone_iff_eq_none, lookup_eq_none_iff_not_mem, predicate?,
      List.find?_eq_none]
    simp [declarations, Declarations.ofSchemas]
  rw [Declarations.denotes, ← hlookup]
  by_cases hequal : type = "="
  · simp [hequal]
  · cases (t.declarations.predicates.lookup type).isSome with
    | true => simp [hequal]
    | false => simp [hequal]

/-- The initial state has the type atoms that the problem asserts. -/
theorem typeAtom_mem_init_iff (h : ElaboratesTo domain problem t) {o : String} :
    ⟨.type type, [o]⟩ ∈ t.init ↔ t.IsAsserted problem.init type o := by
  obtain ⟨i, _, _, hread, hinit⟩ := h.init
  have hatoms : ⟨.type type, [o]⟩ ∈ t.init ↔ ⟨.type type, [o]⟩ ∈ i.atoms := by
    rw [hinit, List.mem_append]
    simp
  rw [hatoms]
  constructor
  · intro hmem
    obtain ⟨fact, hfact, _, _, hatom, -⟩ := wasRead_of_initialState hread _ hmem
    obtain ⟨htype, hdenotes⟩ := isTypeFact_of_reads_atom hatom
    exact ⟨(denotes_eq_type_iff.mp hdenotes).2, fact, hfact, htype⟩
  · intro ⟨hnone, fact, hfact, htype⟩
    obtain ⟨hmem, hne⟩ := mem_atoms_of_initialState hread hfact htype
    rwa [denotes_eq_type_iff.mpr ⟨hne, hnone⟩] at hmem

/-! ### Type atoms of the hierarchy -/

/-- An object with the given name is of a type, which is an ancestor of its own. -/
def HasType (t : Task) (type x : String) : Prop :=
  ∃ o ∈ t.objects, o.name = x ∧ type ∈ t.types.ancestors o.type

theorem mem_objectsOf_iff {x : String} : x ∈ t.objectsOf type ↔ t.HasType type x := by
  simp only [objectsOf, HasType, List.mem_map, List.mem_filter, decide_eq_true_eq, and_assoc]
  exact exists_congr fun o => and_congr_right fun _ => and_comm

theorem hasType_name_iff (hobjects : (t.objects.map (·.name)).Nodup) {o : Object}
    (ho : o ∈ t.objects) : t.HasType type o.name ↔ type ∈ t.types.ancestors o.type := by
  constructor
  · intro ⟨o', ho', hname, htype⟩
    rwa [List.inj_on_of_nodup_map hobjects ho' ho hname] at htype
  · exact fun htype => ⟨o, ho, rfl, htype⟩

theorem typeAtom_mem_typeAtoms_iff {x : String} :
    ⟨.type type, [x]⟩ ∈ t.typeAtoms ↔ t.HasType type x := by
  rw [mem_typeAtoms, ← mem_objectsOf_iff]
  simp

theorem exists_lookup_objectsByType_iff (htype : type ∈ t.types.types) {x : String} :
    (∃ os, t.objectsByType.lookup type = some os ∧ x ∈ os) ↔ t.HasType type x := by
  rw [objectsByType, lookup_map_self htype, ← mem_objectsOf_iff]
  simp

theorem HasType.congr (htypes : t'.types = t.types) (hobjects : t'.objects = t.objects)
    (type x : String) : t'.HasType type x ↔ t.HasType type x := by
  rw [HasType, HasType, htypes, hobjects]

/-! ### Type atoms of reachable states -/

theorem type_not_mem_fluentPredicates (ht : t.IsNormal) :
    Predicate.type type ∉ t.fluentPredicates := by
  intro hmem
  rcases List.mem_append.mp hmem with hmem | hmem
  · obtain ⟨a, ha, hmem⟩ := List.mem_flatMap.mp hmem
    obtain ⟨e, he, hpredicate⟩ := List.mem_map.mp hmem
    obtain ⟨name, hname⟩ := ((ht.actions a ha).effects e he).named
    cases hname.symm.trans hpredicate
  · obtain ⟨x, -, hpredicate⟩ := List.mem_map.mp hmem
    cases hpredicate

/-- Nothing changes which type atoms are true. -/
theorem typeAtom_mem_iff_of_reachable (ht : t.IsNormal) {s : Interpretation} (hs : t.Reachable s)
    {x : String} : ⟨.type type, [x]⟩ ∈ s ↔
      ⟨.type type, [x]⟩ ∈ t.init ∨ t.HasType type x := by
  have hall : Datalog.Covers t Set.univ := ⟨fun _ _ => trivial, fun _ _ _ _ _ _ => trivial⟩
  rw [(GroundTask.isStateOf_of_reachable hall ht hs).static _ (type_not_mem_fluentPredicates ht),
    ← typeAtom_mem_typeAtoms_iff]
  rfl

end Task

/-! ### Parameters in the grounding program -/

namespace Datalog.Program

open SymbolTable

variable {t : Task} {T : SymbolTable} {facts : List GroundAtom} {rules : List Rule}
  {g : GroundAtom} {args : List String}

section

variable (hraw : IsRaw t T facts rules) (ht : t.IsNormal)
  (hg : g ∈ leastModel {a | a ∈ facts} {r | r ∈ rules})
include hraw ht hg

/-- No rule has a type in its head. -/
theorem IsRaw.mem_of_type {type : String} (hnames : T.Names (.predicate (.type type)) args g) :
    ⟨.type type, args⟩ ∈ t.typeAtoms ++ t.init := by
  cases hg with
  | fact hg =>
      obtain ⟨⟨predicate, args'⟩, ha, hnames'⟩ := exists_of_mem_forall₂_right hraw.facts hg
      obtain ⟨hrelation, rfl⟩ := hnames'.inj hnames
      exact Relation.predicate.inj hrelation ▸ ha
  | @rule r hr σ _ =>
      obtain ⟨c, hc, hread⟩ := exists_of_mem_forall₂_right hraw.rules hr
      obtain ⟨name, hname⟩ := named_of_mem_head ht hc
        (eq_of_relationId? hread.head.relation hnames.relation)
      cases hname

/-- The arguments of an applicable instance have the types of the parameters. -/
theorem IsRaw.mem_of_applicabilityClause {rel : Relation} {ps : List Parameter} {cond : Condition}
    (hrel : ∀ c ∈ clauses t, c.head.1 = rel → c = applicabilityClause rel ps cond)
    (hfact : ∀ p, rel ≠ .predicate p) (hps : AreVariables ps) (hnames : T.Names rel args g) :
    List.Forall₂ (fun p x => ⟨.type p.type, [x]⟩ ∈ t.typeAtoms ++ t.init) ps args := by
  cases hg with
  | fact hg =>
      obtain ⟨a, -, hnames'⟩ := exists_of_mem_forall₂_right hraw.facts hg
      exact absurd (hnames.inj hnames').1 (hfact _)
  | @rule r hr σ hbody =>
      obtain ⟨c, hc, hread⟩ := exists_of_mem_forall₂_right hraw.rules hr
      obtain rfl := hrel c hc (eq_of_relationId? hread.head.relation hnames.relation)
      have hvariables : r.head.args = (ps.map (·.name)).map .variable :=
        eq_map_variable_of_reads hread.head.args fun x hx => hps.isVariable_of_mem hx
      have hargs := hnames.args
      rw [Pattern.eval, Pattern.evalArgs, hvariables, List.map_map, List.map_map,
        List.forall₂_map_right_iff] at hargs
      refine ((List.forall₂_and_left _ _).mpr ⟨fun p hp => hp, hargs.flip⟩).imp ?_
      intro p x hboth
      obtain ⟨hp, hx⟩ := hboth
      -- the condition that the rule has for the type of the parameter
      obtain ⟨q, hq, hreads⟩ := exists_of_mem_forall₂ hread.body
        (List.mem_append_left _ (List.mem_map_of_mem hp))
      refine hraw.mem_of_type ht (hbody q hq) ⟨hreads.relation, ?_⟩
      have hvariable : q.args = [p.name].map .variable :=
        eq_map_variable_of_reads hreads.args fun y hy => by
          rw [List.mem_singleton.mp hy]
          exact hps.isVariable p hp
      rw [Pattern.eval, Pattern.evalArgs, hvariable]
      exact .cons hx .nil

end

theorem eq_applicabilityClause_of_action {i : Nat} {a : Action} (ha : t.actions[i]? = some a)
    {c : Clause} (hc : c ∈ clauses t) (hhead : c.head.1 = .action i) :
    c = applicabilityClause (.action i) a.parameters a.precondition := by
  cases isClauseOf_of_mem hc with
  | @action j b hb =>
      obtain rfl : j = i := Relation.action.inj hhead
      obtain rfl : b = a := Option.some.inj (hb.symm.trans ha)
      rfl
  | effect _ _ | derivation _ | head _ | goal => cases hhead

theorem eq_applicabilityClause_of_derivation {i : Nat} {y : Axiom} (hy : t.axioms[i]? = some y)
    {c : Clause} (hc : c ∈ clauses t) (hhead : c.head.1 = .derivation i) :
    c = applicabilityClause (.derivation i) y.parameters y.condition := by
  cases isClauseOf_of_mem hc with
  | @derivation j z hz =>
      obtain rfl : j = i := Relation.derivation.inj hhead
      obtain rfl : z = y := Option.some.inj (hz.symm.trans hy)
      rfl
  | effect _ _ | action _ | head _ | goal => cases hhead

end Datalog.Program

namespace Task

open Datalog Program

variable {t t' : Task} {domain : Pddl.Domain} {problem : Pddl.Problem} {warnings : List String}

/-- Where the objects of a type come from. The ancestors of the declared types, the lists of objects
and the type atoms agree, and initially the type atoms that the problem asserts are true as well.
After normalization, the variables of effects range over the former only, and the parameters of
actions and axioms and the type literals of conditions over both. -/
theorem elaborate_type_membership (h : Task.elaborate domain problem = (.ok t, warnings)) :
    (∀ o ∈ t.objects, ∀ type ∈ t.types.types,
      ((∃ os, t.objectsByType.lookup type = some os ∧ o.name ∈ os) ↔
        type ∈ t.types.ancestors o.type) ∧
      (⟨.type type, [o.name]⟩ ∈ t.typeAtoms ↔ type ∈ t.types.ancestors o.type) ∧
      (⟨.type type, [o.name]⟩ ∈ t.init ↔ t.IsAsserted problem.init type o.name)) ∧
    ∀ t', t.normalize = .ok t' →
      (∀ (ps : List Parameter) os, os ∈ choices (ps.map fun p => t'.objectsOf p.type) ↔
        List.Forall₂ (fun p x => t.HasType p.type x) ps os) ∧
      (∀ g ∈ (rawProgram t').model, ∀ i args,
        ((rawProgram t').symbols.Names (.action i) args g → ∀ a, t'.actions[i]? = some a →
          List.Forall₂ (fun p x => t.HasType p.type x ∨ t.IsAsserted problem.init p.type x)
            a.parameters args) ∧
        ((rawProgram t').symbols.Names (.derivation i) args g → ∀ y, t'.axioms[i]? = some y →
          List.Forall₂ (fun p x => t.HasType p.type x ∨ t.IsAsserted problem.init p.type x)
            y.parameters args)) ∧
      ∀ s, t'.Reachable s → ∀ type x, ⟨.type type, [x]⟩ ∈ s ↔
        t.HasType type x ∨ t.IsAsserted problem.init type x := by
  have helaborates := elaboratesTo h
  obtain ⟨hscoped, htypes⟩ := elaborate_isWellScoped h
  refine ⟨fun o ho type htype => ?_, fun t' hn => ?_⟩
  · have hname : t.HasType type o.name ↔ type ∈ t.types.ancestors o.type :=
      hasType_name_iff hscoped.objects ho
    exact ⟨(exists_lookup_objectsByType_iff htype).trans hname,
      typeAtom_mem_typeAtoms_iff.trans hname, typeAtom_mem_init_iff helaborates⟩
  · have hnormal := isNormal_normalize hscoped hn
    obtain ⟨r, names, new, hsplit⟩ := exists_isBeforeSplitting hscoped htypes hn
    obtain ⟨hsame, hobjects, -, hinit⟩ := hsplit.declarations_eq
    have hraw := isRaw_rawProgram t'
    have htyped : ∀ {ps args}, List.Forall₂
        (fun (p : Parameter) x => ⟨.type p.type, [x]⟩ ∈ t'.typeAtoms ++ t'.init) ps args →
        List.Forall₂ (fun p x => t.HasType p.type x ∨ t.IsAsserted problem.init p.type x)
          ps args := by
      intro ps args hall
      refine hall.imp fun p x hx => (List.mem_append.mp hx).imp (fun hx => ?_) fun hx => ?_
      · exact (HasType.congr hsame hobjects _ _).mp (typeAtom_mem_typeAtoms_iff.mp hx)
      · exact (typeAtom_mem_init_iff helaborates).mp (hinit ▸ hx)
    refine ⟨fun ps os => ?_, fun g hg i args => ⟨fun hnames a ha => ?_, fun hnames y hy => ?_⟩,
      fun s hs type x => ?_⟩
    · rw [mem_choices, List.forall₂_map_right_iff]
      simp only [mem_objectsOf_iff, HasType.congr hsame hobjects]
      exact ⟨List.Forall₂.flip, List.Forall₂.flip⟩
    · exact htyped (hraw.mem_of_applicabilityClause hnormal hg
        (fun c => eq_applicabilityClause_of_action ha) nofun
        (hnormal.actions a (List.mem_of_getElem? ha)).parameters hnames)
    · exact htyped (hraw.mem_of_applicabilityClause hnormal hg
        (fun c => eq_applicabilityClause_of_derivation hy) nofun
        (hnormal.axioms y (List.mem_of_getElem? hy)).parameters hnames)
    · rw [typeAtom_mem_iff_of_reachable hnormal hs, hinit, typeAtom_mem_init_iff helaborates,
        HasType.congr hsame hobjects, or_comm]

end Task

section Example

private def called (name : String) : Sexpr := .atom ⟨name, none⟩

private def application (es : List Sexpr) : Sexpr := .list es default

private def ofType (name type : String) : Pddl.TypedSymbol := ⟨⟨name, none⟩, [⟨type, none⟩]⟩

private def painting : Pddl.Domain where
  name := ⟨"painting", none⟩
  types := [⟨⟨"block", none⟩, []⟩, ⟨⟨"table", none⟩, []⟩]
  predicates := [⟨⟨"painted", none⟩, [⟨⟨"?x", none⟩, []⟩], default⟩]
  actions := [{
    name := ⟨"paint", none⟩
    parameters := [ofType "?x" "block"]
    precondition := none
    effect := some (application [called "painted", called "?x"]) }]

private def paintTable : Pddl.Problem where
  name := ⟨"paint-table", none⟩
  domainName := ⟨"painting", none⟩
  objects := [ofType "b" "block", ofType "t" "table"]
  init := [application [called "block", called "t"]]
  goal := some (application [called "painted", called "t"])

/-- The table is said to be a block. So a literal says that it is, but no effect is about it. -/
theorem painting_type_membership : ∃ t, Task.elaborate painting paintTable = (.ok t, []) ∧
    ⟨"t", "table"⟩ ∈ t.objects ∧ "block" ∉ t.types.ancestors "table" ∧
    ⟨.type "block", ["t"]⟩ ∉ t.typeAtoms ∧ ⟨.type "block", ["t"]⟩ ∈ t.init ∧
    ∃ t', t.normalize = .ok t' ∧ ["t"] ∉ choices [t'.objectsOf "block"] ∧
      ⟨.type "block", ["t"]⟩ ∈ t'.initialState := by
  obtain ⟨t, ht⟩ : ∃ t, Task.elaborate painting paintTable = (.ok t, []) :=
    Task.exists_elaborate (by decide +kernel) (by decide +kernel)
  have hparts : ((Task.elaborate painting paintTable).1.toOption.map fun t =>
      (t.types.types, t.types.ancestors "table", t.objects, t.predicate? "block",
        t.normalize.toOption.isSome)) =
      some (["object", "block", "table"], ["table", "object"],
        [⟨"b", "block"⟩, ⟨"t", "table"⟩], none, true) := by
    decide +kernel
  rw [ht] at hparts
  obtain ⟨htypes, hancestors, hobjects, hnone, hnormalize⟩ : t.types.types = _ ∧
      t.types.ancestors "table" = _ ∧ t.objects = _ ∧ t.predicate? "block" = _ ∧
      t.normalize.toOption.isSome = _ := by
    simpa only [Option.some.injEq, Prod.mk.injEq] using Option.some.inj hparts
  obtain ⟨t', hn⟩ := Option.isSome_iff_exists.mp hnormalize
  have hn := toOption_eq_some_iff.mp hn
  have hmem : (⟨"t", "table"⟩ : Object) ∈ t.objects := by simp [hobjects]
  have hblock : "block" ∉ t.types.ancestors "table" := by simp [hancestors]
  have hasserted : t.IsAsserted paintTable.init "block" "t" :=
    ⟨hnone, _, List.mem_singleton_self _, _, _, _, rfl, rfl, rfl⟩
  obtain ⟨hagree, hnormal⟩ := Task.elaborate_type_membership ht
  obtain ⟨-, hatoms, hinit⟩ := hagree _ hmem "block" (by simp [htypes])
  obtain ⟨heffects, -, hstates⟩ := hnormal t' hn
  refine ⟨t, ht, hmem, hblock, fun hatom => hblock (hatoms.mp hatom), hinit.mpr hasserted, t', hn,
    fun hchoice => ?_, (hstates _ .init _ _).mpr (.inr hasserted)⟩
  cases (heffects [⟨"?x", "block"⟩] ["t"]).mp hchoice with
  | cons htype _ => exact hblock (hatoms.mp (Task.typeAtom_mem_typeAtoms_iff.mpr htype))

end Example

end FinitePlanning
