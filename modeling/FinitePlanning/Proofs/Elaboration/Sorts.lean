import FinitePlanning.Proofs.Elaboration.Meaning
import FinitePlanning.Proofs.Elaboration.Task
import FinitePlanning.Proofs.TypeHierarchy

/-!
Sorts of elaborated tasks. All types that are mentioned belong to the hierarchy, atoms and function
terms are over declared symbols, and a variable is a parameter of the schema that it occurs in or is
bound by exactly one quantifier of its formula.
-/

namespace FinitePlanning

open Elaboration

variable {d : Declarations} {t : Task} {h : TypeHierarchy} {outer : List Parameter}
  {s s' s'' : ElaborationState} {o o' : Outcome}

/-! ### Declared types -/

namespace Declarations

theorem contains_of_singleType {symbol : Pddl.TypedSymbol} {type : String}
    (hread : singleType h symbol = .ok type) : h.contains type = true := by
  rw [singleType] at hread
  split at hread
  next => cases hread; rfl
  next =>
    split at hread
    next hcontains => cases hread; exact hcontains
    next => cases hread
  next => cases hread

/-- The types of some parameters belong to the hierarchy. -/
def HasTypes (h : TypeHierarchy) (ps : List Parameter) : Prop :=
  ∀ p ∈ ps, h.contains p.type = true

theorem hasTypes_of_parameters {symbols : List Pddl.TypedSymbol} {ps : List Parameter}
    (hread : parameters h symbols = .ok ps) : HasTypes h ps := by
  intro p hp
  obtain ⟨symbol, -, hread⟩ := exists_of_mem_forall₂_right (forall₂_of_mapM hread) hp
  obtain ⟨type, htype, hread⟩ := exists_of_bind_eq_ok hread
  cases hread
  exact contains_of_singleType htype

/-- The parameters of all predicates have such types. -/
def HaveTypes (h : TypeHierarchy) (entries : List (Symbol × PredicateSchema)) : Prop :=
  ∀ e ∈ entries, HasTypes h e.2.parameters

theorem hasTypes_of_predicateSchemas {domain : Pddl.Domain} {predicates : List PredicateSchema}
    (hread : predicateSchemas h domain = .ok predicates) :
    ∀ q ∈ predicates, HasTypes h q.parameters := by
  rw [predicateSchemas] at hread
  obtain ⟨declared, hdeclared, hread⟩ := exists_of_bind_eq_ok hread
  obtain ⟨marked, hmarked, hread⟩ := exists_of_bind_eq_ok hread
  cases hread
  have hdeclared : HaveTypes h declared := by
    refine foldlM_ok_keeps (P := HaveTypes h) (fun p _ earlier later hearlier hstep => ?_)
      (List.forall_mem_nil _) hdeclared
    rw [addPredicate] at hstep
    split at hstep
    next => cases hstep
    next =>
      split at hstep
      next => cases hstep
      next =>
        obtain ⟨ps, hps, hstep⟩ := exists_of_bind_eq_ok hstep
        cases hstep
        exact List.forall_mem_append.mpr
          ⟨hearlier, List.forall_mem_singleton.mpr (hasTypes_of_parameters hps)⟩
  have hmarked : HaveTypes h marked := by
    refine foldlM_ok_keeps (P := HaveTypes h) (fun d _ earlier later hearlier hstep => ?_) hdeclared
      hmarked
    rw [markDerived] at hstep
    split at hstep
    next => cases hstep
    next =>
      split at hstep
      next =>
        cases hstep
        refine List.forall_mem_map.mpr fun e he => ?_
        dsimp only
        split
        · exact hearlier e he
        · exact hearlier e he
      next => cases hstep
  exact List.forall_mem_map.mpr hmarked

theorem hasTypes_of_functionSchemas {domain : Pddl.Domain} {functions : List FunctionSchema}
    (hread : functionSchemas h domain = .ok functions) :
    ∀ f ∈ functions, HasTypes h f.parameters := by
  intro f hf
  obtain ⟨declaration, -, hread⟩ := exists_of_mem_forall₂_right (forall₂_of_mapM hread) hf
  split at hread
  next => cases hread
  next =>
    obtain ⟨ps, hps, hread⟩ := exists_of_bind_eq_ok hread
    cases hread
    exact hasTypes_of_parameters hps

theorem contains_of_objectList {symbols : List Pddl.TypedSymbol} {os : List Object}
    (hread : objectList h symbols = .ok os) : ∀ o ∈ os, h.contains o.type = true := by
  rw [objectList] at hread
  obtain ⟨entries, hentries, hread⟩ := exists_of_bind_eq_ok hread
  cases hread
  refine List.forall_mem_map.mpr (foldlM_ok_keeps
    (P := fun entries : List (Symbol × Object) => ∀ e ∈ entries, h.contains e.2.type = true)
    (fun symbol _ earlier later hearlier hstep => ?_) (List.forall_mem_nil _) hentries)
  rw [addObject] at hstep
  split at hstep
  next => cases hstep
  next =>
    obtain ⟨type, htype, hstep⟩ := exists_of_bind_eq_ok hstep
    cases hstep
    exact List.forall_mem_append.mpr
      ⟨hearlier, List.forall_mem_singleton.mpr (contains_of_singleType htype)⟩

end Declarations

/-! ### Types in formulas -/

open Declarations (HasTypes)

/-- The types that a condition mentions belong to the hierarchy. -/
structure Condition.MentionsTypesOf (h : TypeHierarchy) (c : Condition) : Prop where
  quantified : HasTypes h c.quantifiedParameters
  predicates : ∀ l ∈ c.literals, h.Covers l.atom.predicate

structure Effect.MentionsTypesOf (h : TypeHierarchy) (e : Effect) : Prop where
  parameters : HasTypes h e.parameters
  condition : e.condition.MentionsTypesOf h

namespace Condition.MentionsTypesOf

theorem and {cs : List Condition} (hcs : ∀ c ∈ cs, c.MentionsTypesOf h) :
    (Condition.and cs).MentionsTypesOf h where
  quantified p hp := by
    obtain ⟨c, hc, hp⟩ := List.mem_flatMap.mp (quantifiedParameters_and cs ▸ hp)
    exact (hcs c hc).quantified p hp
  predicates l hl := by
    obtain ⟨c, hc, hl⟩ := List.mem_flatMap.mp (literals_and cs ▸ hl)
    exact (hcs c hc).predicates l hl

theorem or {cs : List Condition} (hcs : ∀ c ∈ cs, c.MentionsTypesOf h) :
    (Condition.or cs).MentionsTypesOf h where
  quantified p hp := by
    obtain ⟨c, hc, hp⟩ := List.mem_flatMap.mp (quantifiedParameters_or cs ▸ hp)
    exact (hcs c hc).quantified p hp
  predicates l hl := by
    obtain ⟨c, hc, hl⟩ := List.mem_flatMap.mp (literals_or cs ▸ hl)
    exact (hcs c hc).predicates l hl

theorem junction {cs : List Condition} (conjunctive : Bool)
    (hcs : ∀ c ∈ cs, c.MentionsTypesOf h) : (junction conjunctive cs).MentionsTypesOf h := by
  cases conjunctive with
  | true => exact and hcs
  | false => exact or hcs

theorem quantifier {ps : List Parameter} {body : Condition} (universal : Bool)
    (hps : HasTypes h ps) (hbody : body.MentionsTypesOf h) :
    (quantifier universal ps body).MentionsTypesOf h := by
  have hquantified := List.forall_mem_append.mpr ⟨hps, hbody.quantified⟩
  cases universal with
  | true =>
      exact ⟨quantifiedParameters_forall ps body ▸ hquantified,
        literals_forall ps body ▸ hbody.predicates⟩
  | false =>
      exact ⟨quantifiedParameters_exists ps body ▸ hquantified,
        literals_exists ps body ▸ hbody.predicates⟩

theorem simplified {c : Condition} (hc : c.MentionsTypesOf h) :
    c.simplified.MentionsTypesOf h where
  quantified p hp := hc.quantified p ((Shrinks.simplified c).quantified.subset hp)
  predicates l hl := hc.predicates l ((Shrinks.simplified c).literals hl)

end Condition.MentionsTypesOf

namespace Elaboration

theorem hasTypes_of_bind {rename : Bool} {seen : List String} {scope inner : Scope}
    {symbols : List Pddl.TypedSymbol} {ps : List Parameter}
    (hread : Reads (bind h rename seen scope symbols) s (ps, inner) s') : HasTypes h ps := by
  intro p hp
  obtain ⟨symbol, -, htype⟩ := exists_of_mem_forall₂_right (names_of_reads hread).types hp
  exact Declarations.contains_of_singleType htype

theorem hasTypes_of_quantified {scope inner : Scope} {e : Sexpr} {ps : List Parameter}
    (hread : Reads (quantified d scope e) s (ps, inner) s') : HasTypes d.types ps := by
  rw [quantified] at hread
  split at hread
  next => exact absurd hread not_reads_throw
  next =>
    obtain ⟨symbols, q, hsymbols, hread⟩ := reads_bind hread
    exact hasTypes_of_bind hread

theorem ReadsEach.mentionsTypesOf {es : List Sexpr} {cs : List Condition}
    (hread : ReadsEach (fun _ _ c _ => c.MentionsTypesOf h) es s cs s') :
    ∀ c ∈ cs, c.MentionsTypesOf h := by
  induction hread with
  | nil s => exact List.forall_mem_nil _
  | cons hc _ ih => exact List.forall_mem_cons.mpr ⟨hc, ih⟩

theorem followsFromParts_mentionsTypesOf :
    FollowsFromParts d fun _ _ _ _ c _ => c.MentionsTypesOf d.types where
  truth scope negated span s := by
    cases negated with
    | true => exact ⟨by simp [HasTypes], by simp⟩
    | false => exact ⟨by simp [HasTypes], by simp⟩
  literal hhead hread := ⟨by simp [HasTypes], by simpa using covers_of_atom hread⟩
  and hhead hread := .junction _ hread.mentionsTypesOf
  or hhead hread := .junction _ hread.mentionsTypesOf
  not hhead hread := hread
  imply hhead hc hc' := .junction _ (by simp [hc, hc'])
  «forall» hhead hbound hread := .quantifier _ (hasTypes_of_quantified hbound) hread
  «exists» hhead hbound hread := .quantifier _ (hasTypes_of_quantified hbound) hread

theorem mentionsTypesOf_of_condition {scope : Scope} {e : Sexpr} {c : Condition}
    (hread : Reads (condition d scope e) s c s') : c.MentionsTypesOf d.types := by
  rw [condition] at hread
  obtain ⟨c', q, hc, hread⟩ := reads_bind hread
  obtain ⟨rfl, -⟩ := reads_pure hread
  exact (followsFromParts_mentionsTypesOf.of_reads hc).simplified

theorem mentionsTypesOf_of_precondition {scope : Scope} {e : Option Sexpr} {c : Condition}
    (hread : Reads (precondition d scope e) s c s') : c.MentionsTypesOf d.types := by
  cases e with
  | none =>
      obtain ⟨rfl, -⟩ := reads_pure hread
      exact ⟨by simp [HasTypes], by simp⟩
  | some e => exact mentionsTypesOf_of_condition hread

/-! ### Effects -/

/-- The types around an effect belong to the hierarchy. -/
structure Enclosure.MentionsTypesOf (h : TypeHierarchy) (within : Enclosure) : Prop where
  parameters : HasTypes h within.parameters
  conditions : ∀ c ∈ within.conditions, c.MentionsTypesOf h

theorem Enclosure.MentionsTypesOf.single {within : Enclosure} (hw : within.MentionsTypesOf h)
    (l : Literal) : (within.single l).MentionsTypesOf h :=
  ⟨hw.parameters, (Condition.MentionsTypesOf.and hw.conditions).simplified⟩

theorem FlattensEach.forall_effects {P : Effect → Prop} {es : List Sexpr} {fs : List Effect}
    {ks : List Cost} (hread : FlattensEach (fun _ _ fs _ _ => ∀ f ∈ fs, P f) es s fs ks s') :
    ∀ f ∈ fs, P f := by
  induction hread with
  | nil s => exact List.forall_mem_nil _
  | cons hfirst _ ih => exact List.forall_mem_append.mpr ⟨hfirst, ih⟩

theorem FlattensEach.forall_costs {P : Cost → Prop} {es : List Sexpr} {fs : List Effect}
    {ks : List Cost} (hread : FlattensEach (fun _ _ _ ks _ => ∀ k ∈ ks, P k) es s fs ks s') :
    ∀ k ∈ ks, P k := by
  induction hread with
  | nil s => exact List.forall_mem_nil _
  | cons hfirst _ ih => exact List.forall_mem_append.mpr ⟨hfirst, ih⟩

theorem flattensFromParts_mentionsTypesOf : FlattensFromParts d fun within _ _ fs _ _ =>
    within.MentionsTypesOf d.types → ∀ f ∈ fs, f.MentionsTypesOf d.types where
  nothing _ _ _ _ := List.forall_mem_nil _
  and _ hread hw := (hread.imp fun h => h hw).forall_effects
  «forall» _ hbound hread hw := hread
    ⟨List.forall_mem_append.mpr ⟨hw.parameters, hasTypes_of_quantified hbound⟩, hw.conditions⟩
  when _ hpremise hread hw := hread ⟨hw.parameters, List.forall_mem_append.mpr
    ⟨hw.conditions, List.forall_mem_singleton.mpr (mentionsTypesOf_of_condition hpremise)⟩⟩
  increase _ _ _ _ _ := List.forall_mem_nil _
  not _ _ hw := List.forall_mem_singleton.mpr (hw.single _)
  atom _ _ hw := List.forall_mem_singleton.mpr (hw.single _)

end Elaboration

/-! ### Costs -/

/-- A cost that does not depend on the state is no gain, and another one is the value of a declared
function for some variables and objects. -/
def Cost.IsOver (t : Task) (vars : List String) : Cost → Prop
  | .constant value => 0 ≤ value
  | .function term =>
    (∃ f ∈ t.functions, term.predicate = .named f.name ∧
      term.args.length = f.parameters.length) ∧
    ∀ x ∈ term.args, (isVariable x = true → x ∈ vars) ∧
      (isVariable x = false → x ∈ t.objects.map (·.name))

namespace Elaboration

theorem isOver_of_functionTerm {scope : Scope} {vars : List String} (hscope : scope.IsOver vars)
    {e : Sexpr} {a : Atom} (hread : functionTerm t.declarations scope e = .ok a) :
    (Cost.function a).IsOver t vars := by
  rw [functionTerm] at hread
  obtain ⟨⟨head, es⟩, -, hread⟩ := exists_of_bind_eq_ok hread
  dsimp only at hread
  split at hread
  next => cases hread
  next arity hlookup =>
    obtain ⟨args, hargs, hread⟩ := exists_of_bind_eq_ok hread
    split at hread
    next hlength =>
      cases hread
      obtain ⟨f, hf, heq⟩ := List.mem_map.mp (List.mem_reverse.mp (mem_of_lookup hlookup))
      obtain ⟨hname, harity⟩ := Prod.ext_iff.mp heq
      refine ⟨⟨f, hf, congrArg Predicate.named hname.symm, hlength.trans harity.symm⟩, fun x hx => ?_⟩
      obtain ⟨e, -, hx⟩ := exists_of_mem_forall₂_right (forall₂_of_mapM hargs) hx
      exact isOver_of_term t.describes_declarations hscope hx
    next => cases hread

theorem isOver_of_cost {scope : Scope} {vars : List String} (hscope : scope.IsOver vars)
    {whole : Sexpr} {args : List Sexpr} {k : Cost}
    (hread : cost t.declarations scope whole args = .ok k) : k.IsOver t vars := by
  rw [cost.eq_def] at hread
  split at hread
  next target value =>
    dsimp only at hread
    split at hread
    next =>
      cases value with
      | atom symbol =>
          obtain ⟨c, -, hread⟩ := exists_of_bind_eq_ok hread
          split at hread
          next => cases hread
          next hc =>
            cases hread
            exact Int.not_lt.mp hc
      | list es span =>
          obtain ⟨a, ha, hread⟩ := exists_of_bind_eq_ok hread
          cases hread
          exact isOver_of_functionTerm hscope ha
    next => cases hread
  next => cases hread

theorem flattensFromParts_costs : FlattensFromParts t.declarations fun within _ _ _ ks _ =>
    within.IsOver t outer → ∀ k ∈ ks, k.IsOver t (outer.map (·.name)) where
  nothing _ _ _ _ := List.forall_mem_nil _
  and _ hread hw := (hread.imp fun h => h hw).forall_costs
  «forall» _ hbound hread hw := by
    obtain ⟨symbols, hbinds⟩ := binds_of_quantified hbound
    exact hread (hw.quantified hbinds)
  when _ hpremise hread hw :=
    hread (hw.when (isRead_of_condition t.describes_declarations hw.scope hpremise).1.inScope)
  increase {within} _ _ _ _ _ _ hparameters _ hread hw := by
    have hscope := hw.scope
    rw [hparameters, List.append_nil] at hscope
    exact List.forall_mem_singleton.mpr (isOver_of_cost hscope hread)
  not _ _ _ := List.forall_mem_nil _
  atom _ _ _ := List.forall_mem_nil _

theorem sorts_of_outcome {scope : Scope} (hscope : scope.IsOver (outer.map (·.name)))
    {e : Option Sexpr} (hread : Reads (outcome t.declarations scope e) s o s') :
    (∀ f ∈ o.effects, f.MentionsTypesOf t.types) ∧
      ∀ k ∈ o.cost, k.IsOver t (outer.map (·.name)) := by
  cases e with
  | none =>
      obtain ⟨rfl, rfl⟩ := reads_pure hread
      exact ⟨List.forall_mem_nil _, nofun⟩
  | some e =>
      have hw : Enclosure.IsOver { scope } t outer :=
        ⟨List.forall_mem_nil _, (List.append_nil outer).symm ▸ hscope⟩
      obtain ⟨fs, _, ho, hfs⟩ := flattensFromParts_mentionsTypesOf.of_reads hread
      obtain ⟨_, ks, ho', hks⟩ := flattensFromParts_costs.of_reads hread
      have hfs := hfs ⟨List.forall_mem_nil _, List.forall_mem_nil _⟩
      refine ⟨fun f hf => hfs f ?_, fun k hk => hks hw k ?_⟩
      · exact (mem_foldl_addEffect (ho.effects ▸ hf)).resolve_left List.not_mem_nil
      · rw [← List.nil_append ks]
        exact ho'.cost ▸ Option.mem_toList.mpr hk

end Elaboration

/-! ### Tasks -/

/-- A condition below some parameters. Its atoms are over declared symbols, all its variables are
parameters or bound exactly once, and those that are not bound are listed as its free variables. -/
structure Condition.IsWellSorted (t : Task) (ps : List Parameter) (c : Condition) : Prop where
  atoms : ∀ l ∈ c.literals, IsDeclaredIn t l.atom ∧ t.types.Covers l.atom.predicate
  types : HasTypes t.types c.quantifiedParameters
  distinct : AreVariables (ps ++ c.quantifiedParameters)
  free : ∀ x, x ∈ c.freeVariables ↔ c.IsFree x ∧ isVariable x = Bool.true
  closed : ∀ x ∈ c.freeVariables, x ∈ ps.map (·.name)

structure Effect.IsWellSorted (t : Task) (outer : List Parameter) (e : Effect) : Prop where
  types : HasTypes t.types e.parameters
  condition : e.condition.IsWellSorted t (outer ++ e.parameters)
  literal : e.literal.atom.IsOver t ((outer ++ e.parameters).map (·.name))
  named : ∃ name, e.literal.atom.predicate = .named name

structure Action.IsWellSorted (t : Task) (a : Action) : Prop where
  types : HasTypes t.types a.parameters
  precondition : a.precondition.IsWellSorted t a.parameters
  cost : ∀ k ∈ a.cost, k.IsOver t (a.parameters.map (·.name))
  effects : ∀ e ∈ a.effects, e.IsWellSorted t a.parameters

structure Axiom.IsWellSorted (t : Task) (x : Axiom) : Prop where
  types : HasTypes t.types x.parameters
  condition : x.condition.IsWellSorted t x.parameters
  arity : t.HasArity (.named x.name) x.parameters.length

/-- What later stages rely on without checking it. -/
structure Task.IsWellSorted (t : Task) : Prop where
  parents : ∀ type parent, t.types.parent? type = some parent → t.types.contains parent = true
  objects : ∀ o ∈ t.objects, t.types.contains o.type = true
  predicates : ∀ q ∈ t.predicates, HasTypes t.types q.parameters
  functions : ∀ f ∈ t.functions, HasTypes t.types f.parameters
  init : ∀ a ∈ t.init, a.IsGround t ∧ t.types.Covers a.predicate
  goal : t.goal.IsWellSorted t []
  actions : ∀ a ∈ t.actions, a.IsWellSorted t
  axioms : ∀ x ∈ t.axioms, x.IsWellSorted t

theorem Condition.IsScoped.isWellSorted {k : Fragment} {c : Condition} {ps : List Parameter}
    (hc : c.IsScoped t k (ps.map (·.name))) (hps : AreVariables (ps ++ c.quantifiedParameters))
    (htypes : c.MentionsTypesOf t.types) : c.IsWellSorted t ps where
  atoms l hl := ⟨(isScoped_iff.mp hc).2.1 l hl, htypes.predicates l hl⟩
  types := htypes.quantified
  distinct := hps
  free _ := (hc.isRectified hps).mem_freeVariables
  closed _ hx := hc.freeVariables_subset hx

namespace Elaboration

theorem isWellSorted_of_action {declaration : Pddl.ActionDeclaration} {a : Action}
    (hread : Reads (action t.declarations declaration) s (some a) s') : a.IsWellSorted t := by
  obtain ⟨hscoped, -⟩ := isWellScoped_of_action t.describes_declarations hread
  rw [action_eq] at hread
  obtain ⟨⟨ps, inner⟩, q, hps, hread⟩ := reads_bind hread
  obtain ⟨c, q₁, hc, hread⟩ := reads_bind hread
  obtain ⟨o, q₂, ho, hread⟩ := reads_bind hread
  obtain ⟨heffects, hcost⟩ := sorts_of_outcome (binds_of_reads hps).isOver_parameters ho
  split at hread
  next =>
    obtain ⟨hread, -⟩ := reads_pure hread
    cases hread
  next =>
    obtain ⟨hread, -⟩ := reads_pure hread
    cases hread
    refine ⟨hasTypes_of_bind hps, ?_, hcost, fun e he => ?_⟩
    · exact hscoped.precondition.inScope.isWellSorted hscoped.distinct
        (mentionsTypesOf_of_precondition hc)
    · have hscoped := hscoped.effects e he
      exact ⟨(heffects e he).parameters, hscoped.condition.inScope.isWellSorted
        hscoped.distinct_condition (heffects e he).condition, hscoped.literal, hscoped.named⟩

theorem isWellSorted_of_axiomOf {declaration : Pddl.DerivedDeclaration}
    (harity : t.HasArity (.named declaration.name.name) declaration.parameters.length) {x : Axiom}
    (hread : Reads (axiomOf t.declarations declaration) s x s') : x.IsWellSorted t := by
  have hscoped := isWellScoped_of_axiomOf t.describes_declarations harity hread
  rw [axiomOf] at hread
  obtain ⟨⟨ps, inner⟩, q, hps, hread⟩ := reads_bind hread
  obtain ⟨c, q₁, hc, hread⟩ := reads_bind hread
  obtain ⟨rfl, -⟩ := reads_pure hread
  exact ⟨hasTypes_of_bind hps, hscoped.condition.inScope.isWellSorted hscoped.distinct
    (mentionsTypesOf_of_condition hc), hscoped.arity⟩

theorem mentionsTypesOf_of_goal {p : Pddl.Problem} {c : Condition}
    (hread : Reads (goal d p) s c s') : c.MentionsTypesOf d.types := by
  rw [goal] at hread
  split at hread
  next => exact mentionsTypesOf_of_condition (reads_adapt hread)
  next => exact absurd hread not_reads_throw

theorem ElaboratesTo.isWellSorted {domain : Pddl.Domain} {problem : Pddl.Problem}
    (ht : ElaboratesTo domain problem t) : t.IsWellSorted := by
  have hscoped := ht.isWellScoped.1
  have hderived := (Declarations.nodup_of_predicateSchemas ht.predicates).2
  refine
    { parents := fun type parent hparent => ?_
      objects := Declarations.contains_of_objectList ht.objects
      predicates := Declarations.hasTypes_of_predicateSchemas ht.predicates
      functions := Declarations.hasTypes_of_functionSchemas ht.functions
      init := fun a ha => ⟨hscoped.init a ha, ?_⟩
      goal := ?_
      actions := fun a ha => ?_
      axioms := fun x hx => ?_ }
  · obtain ⟨declared, -, hhierarchy⟩ := exists_of_bind_eq_ok ht.types
    exact TypeHierarchy.contains_of_parent hhierarchy hparent
  · obtain ⟨init, _, _, hinit, hstart⟩ := ht.init
    rw [hstart] at ha
    rcases List.mem_append.mp ha with ha | ha
    · obtain ⟨fact, -, _, _, hread, -⟩ := wasRead_of_initialState hinit a ha
      exact covers_of_atom hread
    · obtain ⟨o, -, rfl⟩ := List.mem_map.mp ha
      exact nofun
  · obtain ⟨_, _, hread⟩ := ht.goal
    exact hscoped.goal.inScope.isWellSorted hscoped.distinct (mentionsTypesOf_of_goal hread)
  · obtain ⟨declaration, -, _, _, hread⟩ := ht.actions a ha
    exact isWellSorted_of_action hread
  · obtain ⟨declaration, hmem, _, _, hread⟩ := ht.axioms x hx
    exact isWellSorted_of_axiomOf (hderived declaration hmem) hread

end Elaboration

/-- Elaborated tasks are well scoped and well sorted. -/
theorem Task.elaborate_isWellSorted {domain : Pddl.Domain} {problem : Pddl.Problem}
    {warnings : List String} (ht : Task.elaborate domain problem = (.ok t, warnings)) :
    t.IsWellSorted :=
  (Task.elaboratesTo ht).isWellSorted

section Example

private def symbolOf (name : String) : Symbol := ⟨name, none⟩

private def leaf (name : String) : Sexpr := .atom (symbolOf name)

private def branch (es : List Sexpr) : Sexpr := .list es default

private def plant (name : String) : Pddl.TypedSymbol := ⟨symbolOf name, [symbolOf "plant"]⟩

/-- The variable of the action is used again in its precondition and in the rule. -/
private def watering : Pddl.Domain where
  name := symbolOf "watering"
  types := [⟨symbolOf "plant", []⟩]
  predicates := [⟨symbolOf "dry", [plant "?p"], default⟩, ⟨symbolOf "thirsty", [], default⟩]
  functions := [⟨symbolOf "litres", [plant "?p"], none, default⟩]
  actions := [{
    name := symbolOf "water"
    parameters := [plant "?p"]
    precondition := some (branch [leaf "exists", branch [leaf "?p", leaf "-", leaf "plant"],
      branch [leaf "dry", leaf "?p"]])
    effect := some (branch [leaf "and",
      branch [leaf "when", branch [leaf "thirsty"], branch [leaf "not",
        branch [leaf "dry", leaf "?p"]]],
      branch [leaf "increase", branch [leaf "total-cost"], branch [leaf "litres", leaf "?p"]]]) }]
  derived := [{
    name := symbolOf "thirsty"
    parameters := []
    body := branch [leaf "exists", branch [leaf "?p", leaf "-", leaf "plant"],
      branch [leaf "dry", leaf "?p"]]
    span := default }]

private def garden : Pddl.Problem where
  name := symbolOf "garden"
  domainName := symbolOf "watering"
  objects := [plant "fern"]
  init := [branch [leaf "dry", leaf "fern"]]
  goal := some (branch [leaf "not", branch [leaf "dry", leaf "fern"]])

theorem watering_isWellSorted : ∃ t, Task.elaborate watering garden = (.ok t, []) ∧
    t.actions.map (·.precondition.quantifiedParameters.map (·.name)) = [["?p1"]] ∧
    t.axioms.map (·.condition.quantifiedParameters.map (·.name)) = [["?p2"]] ∧
    t.IsWellSorted := by
  obtain ⟨t, ht⟩ : ∃ t, Task.elaborate watering garden = (.ok t, []) :=
    Task.exists_elaborate (by decide +kernel) (by decide +kernel)
  have hnames : ((Task.elaborate watering garden).1.toOption.map fun t =>
      (t.actions.map (·.precondition.quantifiedParameters.map (·.name)),
        t.axioms.map (·.condition.quantifiedParameters.map (·.name)))) =
      some ([["?p1"]], [["?p2"]]) := by
    decide +kernel
  rw [ht] at hnames
  obtain ⟨hactions, haxioms⟩ := Prod.ext_iff.mp (Option.some.inj hnames)
  exact ⟨t, ht, hactions, haxioms, Task.elaborate_isWellSorted ht⟩

end Example

end FinitePlanning
