import FinitePlanning.Ground.Explore
import FinitePlanning.Proofs.Datalog.Bounded
import FinitePlanning.Proofs.Exploration.Typing

/-!
What the exploration of a task in normal form finds. Each atom is listed once, the heads of the
axioms that were found are among the atoms, and actions do not change derived atoms.
-/

namespace FinitePlanning
namespace Datalog

open SymbolTable

variable {t : Task} {T : SymbolTable}

/-- Variables stand for themselves. -/
theorem eq_map_variable_of_reads {names : List String} {terms : List Term}
    (h : List.Forall₂ (Term.Reads T) names terms) (hv : ∀ x ∈ names, isVariable x = true) :
    terms = names.map .variable := by
  induction h with
  | nil => rfl
  | cons hx _ ih =>
      rw [List.forall_mem_cons] at hv
      rw [Term.Reads, if_pos hv.1] at hx
      rw [List.map_cons, hx, ih hv.2]

theorem vars_map_variable {q : Pattern} {names : List String} (h : q.args = names.map .variable) :
    q.vars = names := by
  simp [Pattern.vars, h, List.filterMap_map, Function.comp_def, Term.variable?]

theorem constants_map_variable {q : Pattern} {names : List String}
    (h : q.args = names.map .variable) : q.constants = [] := by
  rw [Pattern.constants, h, List.filterMap_eq_nil_iff]
  rintro ⟨term, i⟩ hmem
  obtain ⟨v, -, hv⟩ := List.mem_map.mp (List.fst_mem_of_mem_zipIdx hmem)
  obtain rfl : Term.variable v = term := hv
  rfl

/-- An atom gives the variables of a condition their values. -/
theorem lookup_bindings {q : Pattern} {names : List String} (h : q.args = names.map .variable)
    (hn : names.Nodup) {args : List ObjectId} (hlen : args.length = names.length) {i : Nat}
    {x : String} {id : ObjectId} (hx : names[i]? = some x) (hid : args[i]? = some id) :
    (q.bindings args).lookup x = some id := by
  have hbindings : q.bindings args = (names.zip args).reverse := by
    rw [Pattern.bindings, h, List.zip_map_left, List.filterMap_map]
    exact congrArg List.reverse List.filterMap_some
  have hkeys : ((q.bindings args).map (·.1)).Nodup := by
    rw [hbindings, List.map_reverse, List.map_fst_zip (Nat.le_of_eq hlen.symm)]
    exact List.nodup_reverse.mpr hn
  refine lookup_eq_some_of_nodup hkeys ?_
  rw [hbindings, List.mem_reverse]
  exact List.mem_of_getElem? (List.getElem?_zip_eq_some.mpr ⟨hx, hid⟩)

/-- Projecting a condition to its first variables takes the first arguments. -/
theorem args_instantiate_take {q head : Pattern} {names : List String} {n : Nat}
    (hq : q.args = names.map .variable) (hhead : head.args = (names.take n).map .variable)
    (hn : names.Nodup) {args : List ObjectId} (hlen : args.length = names.length) :
    (head.instantiate (q.bindings args)).args = args.take n := by
  refine List.ext_getElem? fun i => ?_
  simp only [Pattern.instantiate, hhead, List.map_map, List.getElem?_map, List.getElem?_take]
  split
  next =>
    cases hx : names[i]? with
    | none =>
        rw [List.getElem?_eq_none_iff] at hx
        rw [List.getElem?_eq_none_iff.mpr (hlen.trans_le hx)]
        rfl
    | some x =>
        have hlt : i < args.length := hlen ▸ (List.getElem?_eq_some_iff.mp hx).1
        have hid := List.getElem?_eq_getElem hlt
        simp [lookup_bindings hq hn hlen hx hid, hid]
  next => rfl

namespace Program

variable {p : Program} {raw result : List GroundAtom × List Rule} {aux : List SplitRule}

namespace IsBuiltFrom

variable (h : IsBuiltFrom t p T raw result aux) (ht : t.IsNormal)
include h ht

theorem isTyped_rules : ∀ r ∈ raw.2, r.IsTyped T (arityIn t T) := by
  intro r hr
  obtain ⟨c, hc, hread⟩ := exists_of_mem_forall₂_right h.isRaw.rules hr
  exact hread.isTyped (isTyped_clauses ht c hc)

theorem isTyped_facts : ∀ g ∈ raw.1, g.IsTyped T (arityIn t T) := by
  intro g hg
  obtain ⟨a, ha, hnames⟩ := exists_of_mem_forall₂_right h.isRaw.facts hg
  refine hnames.isTyped ?_
  rcases List.mem_append.mp ha with ha | ha
  · obtain ⟨o, -, ha⟩ := List.mem_flatMap.mp ha
    obtain ⟨type, -, rfl⟩ := List.mem_map.mp ha
    rfl
  · exact ht.eq_relationArity (ht.init a ha).1.arity

/-- The grounding program is typed. -/
theorem isTyped : p.IsTyped (arityWith (arityIn t T) aux) := by
  obtain ⟨object, equal, guards, hn⟩ := h.normalized
  obtain ⟨hfacts, hrules⟩ := hn.isTyped (h.isTyped_facts ht) (h.isTyped_rules ht)
  refine Program.isTyped_of_forall (fun g hg => ?_) ?_
  · have hg := hfacts g (h.facts ▸ hg)
    have hext := hg.extend h.symbols.toExtends
    exact ⟨hext.relation, hg.arity.trans (h.splits.arityWith_of_lt hg.relation).symm, hext.objects⟩
  · exact h.splits.isTyped h.symbols.toExtends hrules

end IsBuiltFrom

/-- The relation of an atom, unless it is intermediate, is that of a fact or of the head of a
clause. -/
theorem IsBuiltFrom.clause_of_derivation (h : IsBuiltFrom t p T raw result aux) {id : RelationId}
    {n i : Nat} (harity : (id, n) ∈ p.arities) (hid : T.relations[id.index]? = some (.derivation i)) :
    ∃ c ∈ clauses t, c.head.1 = .derivation i := by
  have hlt : id.index < T.relations.length := (List.getElem?_eq_some_iff.mp hid).1
  obtain ⟨object, equal, guards, hn⟩ := h.normalized
  have hhead : ∀ r ∈ raw.2,
      (separateRepeated equal (guardHead object r)).head.relation = id →
      ∃ c ∈ clauses t, c.head.1 = .derivation i := by
    intro r hr he
    obtain ⟨c, hc, hread⟩ := exists_of_mem_forall₂_right h.isRaw.rules hr
    obtain ⟨-, hseparated, -⟩ := separateRepeated_spec equal (guardHead object r)
    rw [hseparated.relation_eq] at he
    have hrelation : r.head.relation = id := he
    refine ⟨c, hc, Option.some.inj ?_⟩
    rw [← hid, ← hrelation]
    exact (getElem?_of_relationId? hread.head.relation).symm
  rcases List.mem_append.mp harity with hmem | hmem
  · obtain ⟨g, hg, he⟩ := List.mem_map.mp hmem
    obtain rfl : g.relation = id := congrArg Prod.fst he
    rcases hn.of_mem_facts (h.facts ▸ hg) with hg | ⟨o, -, rfl⟩ | ⟨r, hr, -, rfl⟩
    · obtain ⟨a, -, hnames⟩ := exists_of_mem_forall₂_right h.isRaw.facts hg
      cases (getElem?_of_relationId? hnames.relation).symm.trans hid
    · cases (getElem?_of_relationId? hn.objectId).symm.trans hid
    · exact hhead r hr rfl
  · obtain ⟨x, hx, he⟩ := List.mem_map.mp hmem
    obtain rfl : x.head.relation = id := congrArg Prod.fst he
    rcases h.splits.of_mem x hx with hx | ⟨r', hr', hlast⟩
    · exact absurd (h.splits.range x hx).1 (Nat.not_le_of_lt hlt)
    · obtain ⟨⟨r, hr, rfl⟩, -⟩ := hn.mem_rules_iff.mp hr'
      exact hhead r hr (congrArg Pattern.relation hlast.head.symm)

theorem exists_axiom_of_clause {c : Clause} {i : Nat} (hc : c ∈ clauses t)
    (h : c.head.1 = .derivation i) : ∃ x, t.axioms[i]? = some x := by
  cases isClauseOf_of_mem hc with
  | derivation hx =>
      cases h
      exact ⟨_, hx⟩
  | action _ | effect _ _ | head _ | goal => cases h

/-- An atom that says that an axiom is applicable. -/
theorem IsBuiltFrom.exists_axiom (h : IsBuiltFrom t p T raw result aux) {a : GroundAtom} {i : Nat}
    (ha : p.Admits (arityWith (arityIn t T) aux) a)
    (hi : p.symbols.relation a.relation = .derivation i) :
    ∃ x, t.axioms[i]? = some x ∧ T.relations[a.relation.index]? = some (.derivation i) ∧
      a.args.length = x.parameters.length := by
  have hlt := ha.relation
  have hget := List.getElem?_eq_getElem hlt
  have hrelation : p.symbols.relations[a.relation.index] = .derivation i :=
    (relation_of_getElem? hget).symm.trans hi
  rw [hrelation] at hget
  -- the relation was entered before the rules were split
  obtain ⟨j, hj⟩ : ∃ j : Nat, T.relations[j]? = some (.derivation i) := by
    refine List.mem_iff_getElem?.mp ((h.symbols.of_mem _ (List.mem_of_getElem? hget)).resolve_right ?_)
    exact Bool.false_ne_true
  have hj' : p.symbols.relations[j]? = some (.derivation i) := by
    obtain ⟨rest, hrest⟩ := h.symbols.relations
    rw [← hrest, List.getElem?_append_left (List.getElem?_eq_some_iff.mp hj).1, hj]
  have heq : a.relation.index = j := (List.getElem?_inj hlt
    (h.symbols.relations_nodup h.relations_nodup)).mp (hget.trans hj'.symm)
  have hT : T.relations[a.relation.index]? = some (.derivation i) := heq ▸ hj
  obtain ⟨c, hc, hci⟩ := h.clause_of_derivation ha.arities hT
  obtain ⟨x, hx⟩ := exists_axiom_of_clause hc hci
  refine ⟨x, hx, hT, ?_⟩
  rw [ha.arity, h.splits.arityWith_of_lt (List.getElem?_eq_some_iff.mp hT).1, arityIn,
    relation_of_getElem? hT]
  simp [Task.relationArity, hx]

/-- The rule that an axiom that is applicable makes its head true. -/
theorem IsBuiltFrom.axiom_rule (h : IsBuiltFrom t p T raw result aux) {x : Axiom} {i : Nat}
    (hx : t.axioms[i]? = some x) (hn : x.IsNormal t) : ∃ r ∈ p.rules, ∃ q, r.body = [q] ∧
      T.relationId? (.derivation i) = some q.relation ∧
      q.args = (x.parameters.map (·.name)).map .variable ∧
      T.relationId? (.predicate (.named x.name)) = some r.head.relation ∧
      r.head.args = ((x.parameters.map (·.name)).take x.external).map .variable := by
  have hclause : (⟨(.predicate (.named x.name), x.externalParameters.map (·.name)),
      [(.derivation i, x.parameters.map (·.name))]⟩ : Clause) ∈ clauses t := by
    refine List.mem_append_left _ (List.mem_append_right _ (List.mem_flatten.mpr
      ⟨axiomClauses x i, List.mem_map.mpr ⟨(x, i), List.mem_zipIdx_iff_getElem?.mpr hx, rfl⟩, ?_⟩))
    exact List.mem_pair.mpr (.inr rfl)
  obtain ⟨r, hr, hread⟩ := exists_of_mem_forall₂ h.isRaw.rules hclause
  obtain ⟨body, head⟩ := r
  obtain ⟨q, rfl, hq⟩ : ∃ q, body = [q] ∧ Pattern.Reads T (.derivation i, x.parameters.map (·.name)) q := by
    cases hread.body with
    | cons hq hrest =>
        cases hrest
        exact ⟨_, rfl, hq⟩
  have hvariable : ∀ y ∈ x.parameters.map (·.name), isVariable y = true :=
    fun y hy => hn.parameters.isVariable_of_mem hy
  have hqargs := eq_map_variable_of_reads hq.args hvariable
  have hhead : head.args = ((x.parameters.map (·.name)).take x.external).map .variable := by
    rw [← List.map_take]
    exact eq_map_variable_of_reads hread.head.args fun y hy => hvariable y (by
      rw [List.map_take] at hy
      exact List.mem_of_mem_take hy)
  -- neither guards nor replacements are needed
  have hvars := vars_map_variable hqargs
  have hbound : Rule.IsBound ⟨[q], head⟩ := by
    intro v hv
    rw [vars_map_variable hhead] at hv
    exact ⟨q, List.mem_singleton_self q, hvars ▸ List.mem_of_mem_take hv⟩
  have hnodup : ∀ s ∈ head :: [q], s.vars.Nodup := by
    intro s hs
    rcases List.mem_pair.mp hs with rfl | rfl
    · rw [vars_map_variable hhead]
      exact hn.parameters.nodup.sublist (List.take_sublist _ _)
    · rw [hvars]
      exact hn.parameters.nodup
  obtain ⟨object, equal, guards, hnormalized⟩ := h.normalized
  have hmem : (⟨[q], head⟩ : Rule) ∈ result.2 := by
    refine hnormalized.mem_rules_iff.mpr ⟨⟨_, hr, ?_⟩, List.cons_ne_nil _ _⟩
    rw [guardHead_of_isBound hbound, separateRepeated_of_nodup hnodup]
  obtain ⟨y, hy, hyr⟩ := h.single _ hmem q rfl
  have hyhead : y.head = head := congrArg Rule.head hyr
  refine ⟨y, hy, q, congrArg Rule.body hyr, hq.relation, hqargs, ?_, ?_⟩
  · rw [hyhead]
    exact hread.head.relation
  · rw [hyhead, hhead]

end Program
end Datalog

namespace GroundTask

open Datalog SymbolTable

variable {t : Task} {T : SymbolTable} {p : Program} {arity : RelationId → Nat}
  {model : List GroundAtom}

theorem argsOf_inj (hT : p.symbols.objects.Nodup) {a b : GroundAtom} (ha : p.Admits arity a)
    (hb : p.Admits arity b) (h : argsOf p a = argsOf p b) : a.args = b.args := by
  have hlen : a.args.length = b.args.length := by simpa [argsOf] using congrArg List.length h
  refine List.ext_getElem hlen fun i hi hi' => ?_
  refine object_inj hT (ha.objects _ (List.getElem_mem hi)) (hb.objects _ (List.getElem_mem hi')) ?_
  have hget := congrArg (·[i]?) h
  simpa [argsOf, hi, hi'] using hget

/-- Different atoms of the model stand for different atoms of the task. -/
theorem of_fluentAtom_eq_some {c : GroundAtom} {x : Atom}
    (h : (match p.symbols.relation c.relation with
      | .predicate predicate =>
        if predicate ∈ t.fluentPredicates then some (⟨predicate, argsOf p c⟩ : Atom) else none
      | _ => none) = some x) :
    p.symbols.relation c.relation = .predicate x.predicate ∧ argsOf p c = x.args := by
  split at h
  next predicate hpredicate =>
    split at h
    · cases h
      exact ⟨hpredicate, rfl⟩
    · cases h
  next => cases h

theorem nodup_fluentAtoms (hrelations : p.symbols.relations.Nodup)
    (hobjects : p.symbols.objects.Nodup) (hmodel : model.Nodup)
    (hadmits : ∀ a ∈ model, p.Admits arity a) : (fluentAtoms t p model).Nodup := by
  rw [fluentAtoms, List.Nodup, List.pairwise_filterMap]
  refine hmodel.imp_of_mem fun {a b} ha hb hne x hx y hy he => hne ?_
  subst he
  obtain ⟨hra, haa⟩ := of_fluentAtom_eq_some hx
  obtain ⟨hrb, hab⟩ := of_fluentAtom_eq_some hy
  have ha := hadmits a ha
  have hb := hadmits b hb
  have hrelation := relation_inj hrelations ha.relation hb.relation (hra.trans hrb.symm)
  have hargs := argsOf_inj hobjects ha hb (haa.trans hab.symm)
  cases a
  cases b
  exact (GroundAtom.mk.injEq _ _ _ _).mpr ⟨hrelation, hargs⟩

/-- The heads of the axioms that were found are among the atoms. -/
theorem effect_mem_fluentAtoms {raw result : List GroundAtom × List Rule} {aux : List SplitRule}
    (h : Program.IsBuiltFrom t p T raw result aux) (ht : t.IsNormal)
    (hadmits : ∀ a ∈ model, p.Admits (arityWith (arityIn t T) aux) a)
    (hclosed : ∀ a ∈ model, ∀ r ∈ p.rules, ∀ q, r.body = [q] → q.relation = a.relation →
      q.constants = [] → r.head.instantiate (q.bindings a.args) ∈ model)
    {i : Nat} {args : List String} (hi : (i, args) ∈ axiomInstances p model) :
    ∃ x, t.axioms[i]? = some x ∧ .named x.name (args.take x.external) ∈ fluentAtoms t p model := by
  obtain ⟨a, ha, hread⟩ := List.mem_filterMap.mp hi
  have hrelation : p.symbols.relation a.relation = .derivation i ∧ argsOf p a = args := by
    split at hread
    next j hj =>
      cases hread
      exact ⟨hj, rfl⟩
    next => cases hread
  obtain ⟨hrelation, rfl⟩ := hrelation
  obtain ⟨x, hx, hT, hlen⟩ := h.exists_axiom (hadmits a ha) hrelation
  have hmem := List.mem_of_getElem? hx
  have hn := ht.axioms x hmem
  obtain ⟨r, hr, q, hbody, hq, hqargs, hhead, hheadargs⟩ := h.axiom_rule hx hn
  have hqa : q.relation = a.relation := by
    have hget := (List.getElem?_inj (List.getElem?_eq_some_iff.mp hT).1 h.relations_nodup).mp
      (hT.trans (getElem?_of_relationId? hq).symm)
    cases hqr : q.relation
    cases har : a.relation
    simp_all
  refine ⟨x, hx, List.mem_filterMap.mpr ⟨_, hclosed a ha r hr q hbody hqa
    (constants_map_variable hqargs), ?_⟩⟩
  have hsymbol : p.symbols.relation (r.head.instantiate (q.bindings a.args)).relation =
      .predicate (.named x.name) :=
    relation_of_getElem? (getElem?_of_relationId? (h.symbols.relationId? hhead))
  have hfluent : Predicate.named x.name ∈ t.fluentPredicates :=
    List.mem_append_right _ (List.mem_map_of_mem (f := fun x : Axiom => Predicate.named x.name) hmem)
  have hargs := args_instantiate_take hqargs hheadargs hn.parameters.nodup
    (hlen.trans (List.length_map _).symm)
  simp only [hsymbol, if_pos hfluent, argsOf, hargs, List.map_take]
  rfl

theorem predicate_of_mem_effect {g : Grounding} {values : Renaming} {e : Effect}
    {x : List Literal × Literal} (h : x ∈ g.effect values e) :
    x.2.atom.predicate = e.literal.atom.predicate := by
  obtain ⟨os, -, h⟩ := List.mem_filterMap.mp h
  simp only [Grounding.simpleEffect?, Option.bind_eq_bind, Option.bind_eq_some_iff] at h
  obtain ⟨condition, -, h⟩ := h
  split at h
  · cases h
    rfl
  · cases h

/-- Instances of actions do not change derived atoms. -/
theorem not_isDerived_of_mem_effects {a : Action}
    (ha : ∀ d ∈ a.effects, t.isDerived d.literal.atom = false) {g : Grounding} {args : List String}
    {x : GroundAction} (h : g.action? a args = .ok (some x))
    {e : ConditionalEffect} (he : e ∈ x.adds ++ x.deletes) : t.isDerived e.atom = false := by
  have heffect : ∀ y ∈ a.effects.flatMap (g.effect (Grounding.valuesOf a.parameters args)),
      t.isDerived y.2.atom = false := by
    intro y hy
    obtain ⟨d, hd, hy⟩ := List.mem_flatMap.mp hy
    rw [t.isDerived_congr (predicate_of_mem_effect hy)]
    exact ha d hd
  simp only [Grounding.action?] at h
  split at h
  · cases h
  · split at h
    · cases h
    · cases hcost : g.cost a (Grounding.instanceName a.name.name (args.take a.external))
          (Grounding.valuesOf a.parameters args) with
      | error m =>
          rw [hcost] at h
          cases h
      | ok cost =>
          rw [hcost] at h
          cases h
          rcases List.mem_append.mp he with he | he
          · obtain ⟨y, hy, rfl⟩ := List.mem_map.mp he
            exact heffect y (List.mem_filter.mp hy).1
          · obtain ⟨y, hy, rfl⟩ := List.mem_map.mp he
            exact heffect y (List.mem_filter.mp hy).1

/-- What the exploration of a task gives. -/
structure IsExplored (t : Task) (g : GroundTask) : Prop where
  nodup : g.atoms.Nodup
  effects : ∀ x ∈ g.axioms, x.effect ∈ g.atoms ∧ t.isDerived x.effect = true
  actions : ∀ a ∈ g.actions, ∀ e ∈ a.adds ++ a.deletes, t.isDerived e.atom = false

theorem isExplored_of_yields_ofModel {raw result : List GroundAtom × List Rule}
    {aux : List SplitRule} {budget : Budget} {g : GroundTask}
    (h : Program.IsBuiltFrom t p T raw result aux) (ht : t.IsNormal) (hnodup : model.Nodup)
    (hadmits : ∀ a ∈ model, p.Admits (arityWith (arityIn t T) aux) a)
    (hclosed : ∀ a ∈ model, ∀ r ∈ p.rules, ∀ q, r.body = [q] → q.relation = a.relation →
      q.constants = [] → r.head.instantiate (q.bindings a.args) ∈ model)
    (hg : (ofModel t p model budget).Yields g) : g.IsExplored t := by
  rw [ofModel] at hg
  split at hg
  next =>
    obtain ⟨-, -, hg⟩ := Compilation.yields_bind hg
    obtain rfl := Compilation.yields_pure hg
    exact ⟨List.nodup_nil, nofun, nofun⟩
  next =>
    obtain ⟨actions, hactions, hg⟩ := Compilation.yields_bind hg
    obtain ⟨axs, haxs, hg⟩ := Compilation.yields_bind hg
    obtain ⟨-, -, hg⟩ := Compilation.yields_bind hg
    obtain rfl := Compilation.yields_pure hg
    refine ⟨nodup_fluentAtoms (h.symbols.relations_nodup h.relations_nodup)
      (h.symbols.objects_eq ▸ h.objects_nodup) hnodup hadmits, fun x hx => ?_, fun a ha e he => ?_⟩
    · have hx : x ∈ axs := (List.mem_mergeSort).mp hx
      obtain ⟨⟨i, args⟩, hi, hx⟩ := Compilation.of_mem_filterMapM haxs hx
      obtain ⟨-, -, hx⟩ := Compilation.yields_bind hx
      have hx := Compilation.yields_pure hx
      obtain ⟨y, hy, hmem⟩ := effect_mem_fluentAtoms h ht hadmits hclosed hi
      rw [List.getD_eq_getElem?_getD, hy, Option.getD_some] at hx
      simp only [Grounding.axiomInstance?, Option.bind_eq_bind, Option.bind_eq_some_iff] at hx
      obtain ⟨condition, -, hx⟩ := hx
      cases hx
      refine ⟨hmem, List.any_eq_true.mpr ⟨y, List.mem_of_getElem? hy, beq_self_eq_true _⟩⟩
    · obtain ⟨⟨i, args⟩, hi, ha⟩ := Compilation.of_mem_filterMapM hactions ha
      obtain ⟨-, -, ha⟩ := Compilation.yields_bind ha
      refine not_isDerived_of_mem_effects (fun d hd => ?_) (Compilation.yields_ofResult ha) he
      rw [List.getD_eq_getElem?_getD] at hd
      cases hi : t.actions[i]? with
      | none =>
          rw [hi] at hd
          exact absurd hd List.not_mem_nil
      | some a =>
          rw [hi] at hd
          exact ((ht.actions a (List.mem_of_getElem? hi)).effects d hd).basic

theorem isExplored_of_yields (ht : t.IsNormal) {budget : Budget} {g : GroundTask}
    (h : (explore t budget).Yields g) : g.IsExplored t := by
  rw [explore] at h
  obtain ⟨model, hmodel, h⟩ := Compilation.yields_bind h
  obtain ⟨T, raw, result, aux, hbuilt⟩ := Program.exists_isBuiltFrom t
  obtain ⟨hnodup, hadmits, hclosed⟩ := Program.found_of_yields_model (hbuilt.isTyped ht)
    hbuilt.splits.isProper hmodel
  exact isExplored_of_yields_ofModel hbuilt ht hnodup hadmits hclosed h

end GroundTask
end FinitePlanning
