import Mathlib
import FinitePlanning.Proofs.Condition.Meaning
import FinitePlanning.Proofs.Elaboration.Formula
import FinitePlanning.Proofs.Semantics.Formula

/-!
Reading a formula keeps its meaning. The names in scope are not reserved again, so that the values
of new variables leave those of outer ones alone, and a variable of the formula has the value of
the innermost name that it is bound to.
-/

namespace FinitePlanning

open Grounding (valuesOf)

variable {d : Declarations} {scope inner : Scope} {s s' s'' : ElaborationState}
  {objects : String → List String} {I : Interpretation} {env : Environment} {values : Renaming}

/-! ### Typed lists -/

namespace Pddl

theorem names_of_annotatedTypes {e : Sexpr} {types : List Symbol}
    (h : annotatedTypes e = .ok types) : e.typeNames = types.map (·.name) := by
  have hname : ∀ {e : Sexpr} {t : Symbol}, typeName e = .ok t → e.text = t.name := by
    intro e t h
    cases e with
    | atom t => cases h; rfl
    | list es span => cases h
  rw [annotatedTypes] at h
  split at h
  next variants harguments =>
    obtain ⟨first, span, rfl⟩ : ∃ first span, e = .list (first :: variants) span := by
      cases e with
      | atom t => cases harguments
      | list es span =>
          cases es with
          | nil => cases harguments
          | cons first es =>
              rw [Sexpr.arguments?] at harguments
              split at harguments
              next => cases harguments; exact ⟨first, span, rfl⟩
              next => cases harguments
    have hvariants := forall₂_of_mapM h
    clear h harguments
    rw [Sexpr.typeNames]
    induction hvariants with
    | nil => rfl
    | cons ht _ ih => rw [List.map_cons, List.map_cons, hname ht, ih]
  next =>
    cases htype : typeName e with
    | error m => rw [htype] at h; cases h
    | ok t =>
        rw [htype] at h
        cases h
        cases e with
        | atom t => cases htype; rfl
        | list es span => cases htype

/-- A typed symbol with the names of its types. -/
def TypedSymbol.typedName (s : TypedSymbol) : String × List String :=
  (s.symbol.name, s.types.map (·.name))

theorem typedNames_of_readTyped {whole : Span} {pending : List Symbol} {es : List Sexpr}
    {symbols : List TypedSymbol} (h : (readTyped whole pending es).1 = .ok symbols) :
    symbols.map (·.typedName) = pending.map (fun p => (p.name, Sexpr.nextTypes es))
      ++ Sexpr.typedNames es := by
  induction es using Sexpr.typedNames.induct generalizing pending symbols with
  | case1 =>
      cases h
      simp [Sexpr.nextTypes, Sexpr.typedNames, TypedSymbol.typedName]
  | case2 e =>
      cases e with
      | list es span => cases h
      | atom symbol =>
          rw [readTyped] at h
          split at h
          next => split at h <;> cases h
          next hdash =>
            cases h
            have hatom : (Sexpr.atom symbol).isAtom "-" = false := by simpa [Sexpr.isAtom] using hdash
            simp [Sexpr.nextTypes, Sexpr.typedNames, TypedSymbol.typedName, hatom, Sexpr.text]
  | case3 e e' rest hdash ih =>
      cases e with
      | list es span => cases h
      | atom symbol =>
          have hname : symbol.name = "-" := by simpa [Sexpr.isAtom] using hdash
          rw [readTyped, if_pos hname] at h
          split at h
          next => cases h
          next =>
            dsimp only at h
            split at h
            next => cases h
            next types htypes =>
              dsimp only at h
              cases hrest : readTyped whole [] rest with
              | mk result remaining =>
                  rw [hrest] at h
                  cases result with
                  | error m => cases h
                  | ok symbols' =>
                      cases h
                      have hrest := ih (congrArg Prod.fst hrest)
                      rw [List.map_append, hrest, Sexpr.nextTypes, if_pos hdash, Sexpr.typedNames,
                        if_pos hdash]
                      simp [TypedSymbol.typedName, names_of_annotatedTypes htypes]
  | case4 e e' rest hdash ih =>
      cases e with
      | list es span => cases h
      | atom symbol =>
          have hname : symbol.name ≠ "-" := by simpa [Sexpr.isAtom] using hdash
          rw [readTyped, if_neg hname] at h
          have hnext : Sexpr.nextTypes (.atom symbol :: e' :: rest)
              = Sexpr.nextTypes (e' :: rest) := if_neg hdash
          have htyped : Sexpr.typedNames (.atom symbol :: e' :: rest)
              = (symbol.name, Sexpr.nextTypes (e' :: rest)) :: Sexpr.typedNames (e' :: rest) :=
            if_neg hdash
          rw [ih h, hnext, htyped, List.map_append, List.append_assoc]
          rfl

end Pddl

/-! ### Variables -/

/-- The targets of a scope are reserved. -/
def Scope.IsReserved (scope : Scope) (s : ElaborationState) : Prop :=
  ∀ x ∈ scope.map (·.2), x ∈ s.reserved

/-- A variable has the value of the name that it is bound to. -/
def Scope.Agrees (scope : Scope) (env : Environment) (values : Renaming) : Prop :=
  ∀ x y, scope.lookup x = some y → env x = values.apply y

/-- The values of the variables in scope, through the names that they are bound to. -/
def Scope.environment (scope : Scope) (values : Renaming) : Environment :=
  fun x => values.apply ((scope.lookup x).getD x)

theorem Scope.agrees_environment (scope : Scope) (values : Renaming) :
    scope.Agrees (scope.environment values) values := by
  intro x y hxy
  rw [Scope.environment, hxy]
  rfl

namespace Elaboration

/-- What the variables that some symbols declare are called and which types they have. -/
structure Names (types : TypeHierarchy) (seen : List String) (scope : Scope)
    (symbols : List Pddl.TypedSymbol) (ps : List Parameter) (inner : Scope) : Prop where
  nodup : (symbols.map (·.symbol.name)).Nodup
  unseen : ∀ x ∈ symbols.map (·.symbol.name), x ∉ seen
  types : List.Forall₂ (fun symbol p => Declarations.singleType types symbol = .ok p.type)
    symbols ps
  scope : inner = ((symbols.map (·.symbol.name)).zip (ps.map (·.name))).reverse ++ scope

theorem names_of_reads {types : TypeHierarchy} {rename : Bool} {seen : List String}
    {symbols : List Pddl.TypedSymbol} {ps : List Parameter}
    (h : Reads (bind types rename seen scope symbols) s (ps, inner) s') :
    Names types seen scope symbols ps inner := by
  induction symbols generalizing seen scope ps s with
  | nil =>
      rw [bind] at h
      obtain ⟨h, rfl⟩ := reads_pure h
      cases h
      exact ⟨List.nodup_nil, List.forall_mem_nil _, .nil, rfl⟩
  | cons symbol rest ih =>
      rw [bind] at h
      split at h
      next hvariable =>
        dsimp only at h
        split at h
        next => exact absurd h not_reads_throw_bind
        next hseen =>
          obtain ⟨type, q, htype, h⟩ := reads_bind h
          obtain ⟨hsingle, rfl⟩ := reads_result htype
          obtain ⟨x, q', hx, h⟩ := reads_bind h
          obtain ⟨⟨ps', inner'⟩, q'', hrest, h⟩ := reads_bind h
          obtain ⟨h, rfl⟩ := reads_pure h
          cases h
          have hnames := ih hrest
          refine ⟨List.nodup_cons.mpr ⟨fun hmem => ?_, hnames.nodup⟩,
            List.forall_mem_cons.mpr ⟨hseen, fun y hy hys => ?_⟩, .cons hsingle hnames.types, ?_⟩
          · exact hnames.unseen _ hmem List.mem_cons_self
          · exact hnames.unseen y hy (List.mem_cons_of_mem _ hys)
          · simpa using hnames.scope
      next => exact absurd h not_reads_throw_bind

theorem objectsOfTypes_of_singleType {types : TypeHierarchy} {symbol : Pddl.TypedSymbol}
    {type : String} (h : Declarations.singleType types symbol = .ok type) :
    Sexpr.objectsOfTypes objects symbol.typedName.2 = objects type := by
  rw [Declarations.singleType] at h
  split at h
  next htypes => cases h; simp [Sexpr.objectsOfTypes, Pddl.TypedSymbol.typedName, htypes]
  next t htypes =>
    split at h
    next => cases h; simp [Sexpr.objectsOfTypes, Pddl.TypedSymbol.typedName, htypes]
    next => cases h
  next => cases h

/-- The variables range over the objects of their types. -/
theorem Names.rangeOver_iff {types : TypeHierarchy} {seen : List String}
    {symbols : List Pddl.TypedSymbol} {ps : List Parameter}
    (h : Names types seen scope symbols ps inner) {os : List String} :
    Sexpr.RangeOver objects (symbols.map (·.typedName)) os ↔ TypedBy objects ps os := by
  have htypes := h.types
  clear h
  rw [Sexpr.RangeOver, TypedBy, List.forall₂_map_left_iff]
  induction htypes generalizing os with
  | nil => rw [List.forall₂_nil_left_iff, List.forall₂_nil_left_iff]
  | cons hr _ ih =>
      cases os with
      | nil => simp
      | cons o os =>
          rw [List.forall₂_cons, List.forall₂_cons, objectsOfTypes_of_singleType hr]
          exact and_congr_right fun _ => ih

/-- Within a quantifier its variables have their values and others keep theirs. -/
theorem Names.agrees {types : TypeHierarchy} {symbols : List Pddl.TypedSymbol}
    {ps : List Parameter} (h : Names types [] scope symbols ps inner)
    (hdeclares : Declares s ps s') (hreserved : scope.IsReserved s) (hagrees : scope.Agrees env values)
    {os : List String} (hlength : ps.length = os.length) :
    inner.Agrees (env.update (symbols.map (·.symbol.name)) os) (valuesOf ps os ++ values) := by
  have hsymbols : symbols.length = ps.length := h.types.length_eq
  intro x y hxy
  rw [h.scope, List.lookup_append] at hxy
  cases hnew : ((symbols.map (·.symbol.name)).zip (ps.map (·.name))).reverse.lookup x with
  | some z =>
      rw [hnew, Option.some_or] at hxy
      obtain rfl := Option.some.inj hxy
      obtain ⟨i, hi, hpair⟩ := List.mem_iff_getElem.mp (List.mem_reverse.mp (mem_of_lookup hnew))
      rw [List.length_zip, List.length_map, List.length_map, hsymbols, Nat.min_self] at hi
      rw [List.getElem_zip, Prod.mk.injEq] at hpair
      have hos : i < os.length := hlength ▸ hi
      have hx : (x, os[i]) ∈ (symbols.map (·.symbol.name)).zip os :=
        List.mem_iff_getElem.mpr ⟨i, by simp [hsymbols, hi, hos], by simpa using hpair.1⟩
      have hz : (valuesOf ps os).apply z = os[i] := by
        rw [← hpair.2, List.getElem_map]
        exact Grounding.apply_valuesOf hdeclares.areVariables.nodup hlength
          (List.getElem?_eq_getElem hi) (List.getElem?_eq_getElem hos)
      have hkey : z ∈ (valuesOf ps os).map (·.1) := by
        rw [mem_keys_valuesOf_iff hlength, ← hpair.2]
        exact List.getElem_mem _
      rw [Environment.update_of_mem h.nodup (by simp [hsymbols, hlength]) hx,
        Renaming.apply_append_of_mem hkey, hz]
  | none =>
      rw [hnew, Option.none_or] at hxy
      have hx : x ∉ symbols.map (·.symbol.name) := by
        intro hmem
        refine lookup_eq_none_iff_not_mem.mp hnew ?_
        rwa [List.map_reverse, List.mem_reverse, List.map_fst_zip (by simp [hsymbols])]
      have hy : y ∉ (valuesOf ps os).map (·.1) := fun hmem =>
        hdeclares.fresh y ((mem_keys_valuesOf_iff hlength).mp hmem)
          (hreserved y (List.mem_map_of_mem (mem_of_lookup hxy)))
      rw [Environment.update_of_not_mem hx, Renaming.apply_append_of_not_mem hy]
      exact hagrees x y hxy

/-! ### Formulas -/

/-- A condition is true if and only if a formula is, or if it is not for a negated one. -/
def Renders (d : Declarations) (scope : Scope) (negated : Bool) (e : Sexpr) (c : Condition) :
    Prop :=
  ∀ ⦃objects : String → List String⦄ ⦃I : Interpretation⦄ ⦃env : Environment⦄ ⦃values : Renaming⦄,
    FixesObjects values.apply → scope.Agrees env values →
      (c.Holds objects I values ↔
        if negated then ¬ e.IsTrue d objects I env else e.IsTrue d objects I env)

/-- A reading of a formula within a scope whose names are reserved. -/
def IsFaithful (d : Declarations) (scope : Scope) (negated : Bool) (e : Sexpr)
    (s : ElaborationState) (c : Condition) (s' : ElaborationState) : Prop :=
  scope.IsReserved s → Declares s c.quantifiedParameters s' ∧ Renders d scope negated e c

theorem faithful_of_readsEach {negated : Bool} {es : List Sexpr} {cs : List Condition}
    (h : ReadsEach (IsFaithful d scope negated) es s cs s') (hreserved : scope.IsReserved s) :
    Declares s (cs.flatMap (·.quantifiedParameters)) s' ∧
      List.Forall₂ (Renders d scope negated) es cs := by
  induction h with
  | nil s => exact ⟨.refl s, .nil⟩
  | cons hc _ ih =>
      obtain ⟨hdeclares, hrenders⟩ := hc hreserved
      obtain ⟨hrest, hes⟩ := ih fun x hx => hdeclares.grows (hreserved x hx)
      exact ⟨hdeclares.append hrest, .cons hrenders hes⟩

theorem declares_junction {conjunctive : Bool} {cs : List Condition}
    (h : Declares s (cs.flatMap (·.quantifiedParameters)) s') :
    Declares s (junction conjunctive cs).quantifiedParameters s' := by
  cases conjunctive with
  | true => exact Condition.quantifiedParameters_and cs ▸ h
  | false => exact Condition.quantifiedParameters_or cs ▸ h

theorem declares_quantifier {universal : Bool} {ps : List Parameter} {c : Condition}
    (hps : Declares s ps s') (h : Declares s' c.quantifiedParameters s'') :
    Declares s (quantifier universal ps c).quantifiedParameters s'' := by
  cases universal with
  | true => exact Condition.quantifiedParameters_forall ps c ▸ hps.append h
  | false => exact Condition.quantifiedParameters_exists ps c ▸ hps.append h

/-- A junction for any reading of conditions that respects conjunctions and disjunctions. -/
theorem junction_iff {negated : Bool} {T : Condition → Prop} {P : Sexpr → Prop} {es : List Sexpr}
    {cs : List Condition} (hand : ∀ cs, T (.and cs) ↔ ∀ c ∈ cs, T c)
    (hor : ∀ cs, T (.or cs) ↔ ∃ c ∈ cs, T c)
    (h : List.Forall₂ (fun e c => T c ↔ if negated then ¬ P e else P e) es cs) :
    (T (junction (!negated) cs) ↔ if negated then ¬ ∀ e ∈ es, P e else ∀ e ∈ es, P e) ∧
    (T (junction negated cs) ↔ if negated then ¬ ∃ e ∈ es, P e else ∃ e ∈ es, P e) := by
  cases negated with
  | true =>
      simp only [if_true] at h ⊢
      push Not
      exact ⟨(hor cs).trans (exists_mem_iff_of_forall₂ h),
        (hand cs).trans (forall_mem_iff_of_forall₂ h)⟩
  | false =>
      exact ⟨(hand cs).trans (forall_mem_iff_of_forall₂ h),
        (hor cs).trans (exists_mem_iff_of_forall₂ h)⟩

/-- An implication for any such reading. Its premise is negated. -/
theorem imply_iff {negated : Bool} {T : Condition → Prop} {P Q : Prop} {c c' : Condition}
    (hand : ∀ cs, T (.and cs) ↔ ∀ c ∈ cs, T c) (hor : ∀ cs, T (.or cs) ↔ ∃ c ∈ cs, T c)
    (h : T c ↔ if !negated then ¬ P else P) (h' : T c' ↔ if negated then ¬ Q else Q) :
    T (junction negated [c, c']) ↔ if negated then ¬ (P → Q) else P → Q := by
  cases negated with
  | true => simp [junction, hand, h, h']
  | false => simp [junction, hor, h, h', imp_iff_not_or]

/-- What is declared by a quantifier is new, and its values are those of its variables. -/
structure Quantifies (scope : Scope) (bound : Sexpr) (s : ElaborationState) (ps : List Parameter)
    (inner : Scope) (s' : ElaborationState) : Prop where
  declares : Declares s ps s'
  reserved : scope.IsReserved s → inner.IsReserved s'
  range (objects : String → List String) (os : List String) :
    Sexpr.RangeOver objects bound.boundNames os ↔ TypedBy objects ps os
  agrees {env : Environment} {values : Renaming} {os : List String} : scope.IsReserved s →
    scope.Agrees env values → ps.length = os.length →
      inner.Agrees (env.update (bound.boundNames.map (·.1)) os) (valuesOf ps os ++ values)

theorem quantifies_of_reads {bound : Sexpr} {ps : List Parameter}
    (h : Reads (quantified d scope bound) s (ps, inner) s') :
    Quantifies scope bound s ps inner s' := by
  rw [quantified] at h
  split at h
  next => exact absurd h not_reads_throw
  next cursor hcursor =>
    obtain ⟨symbols, q, hread, h⟩ := reads_bind h
    obtain ⟨hsymbols, rfl⟩ := reads_result hread
    have hbound : bound.boundNames = symbols.map (·.typedName) := by
      cases bound with
      | atom symbol => cases hcursor
      | list es span =>
          cases hcursor
          exact (@Pddl.typedNames_of_readTyped span [] es symbols hsymbols).symm
    have hbinds := binds_of_reads h
    have hnames := names_of_reads h
    refine ⟨hbinds.declares, fun hreserved x hx => ?_, fun objects os => ?_,
      fun hreserved hagrees hlength => ?_⟩
    · rw [hbinds.scope, List.mem_append, List.mem_reverse] at hx
      exact hx.elim (hbinds.reserved x) fun hx => hbinds.grows (hreserved x hx)
    · rw [hbound]
      exact hnames.rangeOver_iff
    · rw [hbound, List.map_map]
      exact hnames.agrees hbinds.declares hreserved hagrees hlength

theorem apply_of_term (hfix : FixesObjects values.apply) (hagrees : scope.Agrees env values)
    {e : Sexpr} {x : String} (h : term d scope e = .ok x) : values.apply x = e.value env := by
  rw [term] at h
  cases e with
  | list es span => cases h
  | atom symbol =>
      dsimp only [Sexpr.atom?] at h
      rw [Sexpr.value, Sexpr.text, ← Symbol.isVariable]
      split at h
      next hvariable =>
        rw [if_pos hvariable]
        split at h
        next y hlookup => cases h; exact (hagrees _ _ hlookup).symm
        next => cases h
      next hvariable =>
        rw [if_neg hvariable]
        split at h
        next => cases h; exact hfix _ (by simpa [Symbol.isVariable] using hvariable)
        next => cases h

theorem rename_of_terms (hfix : FixesObjects values.apply) (hagrees : scope.Agrees env values)
    {head : Symbol} {args : List Sexpr} {a : Atom} (hpredicate : a.predicate = d.denotes head.name)
    (hargs : List.Forall₂ (fun e x => term d scope e = .ok x) args a.args) :
    a.rename values = ⟨d.denotes head.name, args.map (Sexpr.value env)⟩ := by
  have hvalues : a.args.map values.apply = args.map (Sexpr.value env) := by
    refine List.forall₂_eq_eq_eq ▸ ?_
    rw [List.forall₂_map_left_iff, List.forall₂_map_right_iff]
    exact hargs.flip.imp fun x e he => apply_of_term hfix hagrees he
  rw [Atom.rename, hpredicate, hvalues]

theorem renders_literal {negated : Bool} {head : Symbol} {args : List Sexpr} {span : Span}
    {a : Atom} (hhead : Connective.ofKeyword? head.name = none)
    (hpredicate : a.predicate = d.denotes head.name)
    (hargs : List.Forall₂ (fun e x => term d scope e = .ok x) args a.args) :
    Renders d scope negated (.list (.atom head :: args) span) (.literal ⟨a, negated⟩) := by
  intro objects I env values hfix hagrees
  rw [Condition.holds_literal, Sexpr.isTrue_atom hhead,
    ← rename_of_terms hfix hagrees hpredicate hargs]
  cases negated with
  | true => exact Literal.holds_negative I _
  | false => exact Literal.holds_positive I _

theorem renders_imply {negated : Bool} {head : Symbol} {premise conclusion : Sexpr} {span : Span}
    {c c' : Condition} (hhead : Connective.ofKeyword? head.name = some .imply)
    (h : Renders d scope (!negated) premise c) (h' : Renders d scope negated conclusion c') :
    Renders d scope negated (.list [.atom head, premise, conclusion] span)
      (junction negated [c, c']) := by
  intro objects I env values hfix hagrees
  rw [Sexpr.isTrue_imply hhead]
  exact imply_iff (fun _ => Condition.holds_and) (fun _ => Condition.holds_or) (h hfix hagrees)
    (h' hfix hagrees)

/-- The body of a quantifier for values of its variables. -/
theorem Quantifies.holds_body {bound body : Sexpr} {ps : List Parameter} {negated : Bool}
    {c : Condition} (h : Quantifies scope bound s ps inner s') (hreserved : scope.IsReserved s)
    (hbody : Renders d inner negated body c) (hfix : FixesObjects values.apply)
    (hagrees : scope.Agrees env values) {os : List String} (hos : TypedBy objects ps os) :
    c.Holds objects I (valuesOf ps os ++ values) ↔
      if negated then ¬ body.IsTrue d objects I (env.update (bound.boundNames.map (·.1)) os)
      else body.IsTrue d objects I (env.update (bound.boundNames.map (·.1)) os) :=
  hbody (Condition.fixesObjects_append h.declares.areVariables.isVariable hfix os)
    (h.agrees hreserved hagrees hos.length_eq)

theorem Quantifies.renders_forall {head : Symbol} {bound body : Sexpr} {span : Span}
    {ps : List Parameter} {negated : Bool} {c : Condition}
    (hhead : Connective.ofKeyword? head.name = some .forall)
    (h : Quantifies scope bound s ps inner s') (hreserved : scope.IsReserved s)
    (hbody : Renders d inner negated body c) :
    Renders d scope negated (.list [.atom head, bound, body] span)
      (quantifier (!negated) ps c) := by
  intro objects I env values hfix hagrees
  have hholds := fun os (hos : TypedBy objects ps os) =>
    h.holds_body (I := I) hreserved hbody hfix hagrees hos
  rw [Sexpr.isTrue_forall hhead]
  simp only [h.range]
  cases negated with
  | true =>
      push Not
      exact Condition.holds_exists.trans (exists_congr fun os => and_congr_right (hholds os))
  | false => exact Condition.holds_forall.trans (forall₂_congr hholds)

theorem Quantifies.renders_exists {head : Symbol} {bound body : Sexpr} {span : Span}
    {ps : List Parameter} {negated : Bool} {c : Condition}
    (hhead : Connective.ofKeyword? head.name = some .exists)
    (h : Quantifies scope bound s ps inner s') (hreserved : scope.IsReserved s)
    (hbody : Renders d inner negated body c) :
    Renders d scope negated (.list [.atom head, bound, body] span)
      (quantifier negated ps c) := by
  intro objects I env values hfix hagrees
  have hholds := fun os (hos : TypedBy objects ps os) =>
    h.holds_body (I := I) hreserved hbody hfix hagrees hos
  rw [Sexpr.isTrue_exists hhead]
  simp only [h.range]
  cases negated with
  | true =>
      push Not
      exact Condition.holds_forall.trans (forall₂_congr hholds)
  | false =>
      exact Condition.holds_exists.trans (exists_congr fun os => and_congr_right (hholds os))

theorem followsFromParts_isFaithful : FollowsFromParts d (IsFaithful d) where
  truth scope negated span s hreserved := by
    cases negated with
    | true =>
        refine ⟨Condition.quantifiedParameters_false ▸ .refl s, fun _ _ _ _ _ _ => ?_⟩
        simp [Sexpr.isTrue_nil]
    | false =>
        refine ⟨Condition.quantifiedParameters_true ▸ .refl s, fun _ _ _ _ _ _ => ?_⟩
        simp [Sexpr.isTrue_nil]
  literal hhead h hreserved := by
    obtain ⟨head, es, heq, -, hpredicate, hargs, hgrows⟩ := reads_atom h
    cases heq
    exact ⟨Condition.quantifiedParameters_literal _ ▸ .of_subset hgrows,
      renders_literal hhead hpredicate hargs⟩
  and hhead h hreserved := by
    obtain ⟨hdeclares, hes⟩ := faithful_of_readsEach h hreserved
    refine ⟨declares_junction hdeclares, fun objects I env values hfix hagrees => ?_⟩
    rw [Sexpr.isTrue_and hhead]
    exact (junction_iff (fun _ => Condition.holds_and) (fun _ => Condition.holds_or)
      (hes.imp fun e c hc => hc hfix hagrees)).1
  or hhead h hreserved := by
    obtain ⟨hdeclares, hes⟩ := faithful_of_readsEach h hreserved
    refine ⟨declares_junction hdeclares, fun objects I env values hfix hagrees => ?_⟩
    rw [Sexpr.isTrue_or hhead]
    exact (junction_iff (fun _ => Condition.holds_and) (fun _ => Condition.holds_or)
      (hes.imp fun e c hc => hc hfix hagrees)).2
  not {scope negated head arg span s s' c} hhead h hreserved := by
    obtain ⟨hdeclares, hrenders⟩ := h hreserved
    refine ⟨hdeclares, fun objects I env values hfix hagrees => ?_⟩
    rw [hrenders hfix hagrees, Sexpr.isTrue_not hhead]
    cases negated with
    | true => exact not_not.symm
    | false => exact Iff.rfl
  imply hhead h h' hreserved := by
    obtain ⟨hdeclares, hrenders⟩ := h hreserved
    obtain ⟨hdeclares', hrenders'⟩ := h' fun x hx => hdeclares.grows (hreserved x hx)
    refine ⟨declares_junction ?_, renders_imply hhead hrenders hrenders'⟩
    simpa using hdeclares.append hdeclares'
  «forall» hhead hbound h hreserved := by
    have hquantifies := quantifies_of_reads hbound
    obtain ⟨hdeclares, hbody⟩ := h (hquantifies.reserved hreserved)
    exact ⟨declares_quantifier hquantifies.declares hdeclares,
      hquantifies.renders_forall hhead hreserved hbody⟩
  «exists» hhead hbound h hreserved := by
    have hquantifies := quantifies_of_reads hbound
    obtain ⟨hdeclares, hbody⟩ := h (hquantifies.reserved hreserved)
    exact ⟨declares_quantifier hquantifies.declares hdeclares,
      hquantifies.renders_exists hhead hreserved hbody⟩

/-- The condition that a formula is read as, before it is simplified, is true if and only if the
formula is, for all objects of the types, all interpretations and all values of the variables in
scope. All of its quantified variables are different and new. Its negations are on literals, as
those of all conditions are. -/
theorem condition_keeps_meaning {e : Sexpr} {c : Condition} (hreserved : scope.IsReserved s)
    (h : Reads (condition d scope e) s c s') :
    ∃ built, Reads (formula d scope false e) s built s' ∧ c = built.simplified ∧
      (∀ (objects : String → List String) (I : Interpretation) (values : Renaming),
        FixesObjects values.apply →
          (built.Holds objects I values ↔ e.IsTrue d objects I (scope.environment values))) ∧
      (built.quantifiedParameters.map (·.name)).Nodup ∧
      ∀ x ∈ built.quantifiedParameters.map (·.name), x ∉ s.reserved := by
  rw [condition] at h
  obtain ⟨built, q, hbuilt, h⟩ := reads_bind h
  obtain ⟨rfl, rfl⟩ := reads_pure h
  obtain ⟨hdeclares, hrenders⟩ := followsFromParts_isFaithful.of_reads hbuilt hreserved
  refine ⟨built, hbuilt, rfl, fun objects I values hfix => hrenders hfix fun x y hxy => ?_,
    hdeclares.areVariables.nodup, hdeclares.fresh⟩
  rw [Scope.environment, hxy]
  rfl

/-! ### An example -/

/-- Places and roads between them. -/
def roads : Declarations where
  types := ⟨["object"], []⟩
  objects := ["home"]
  predicates := [("visited", 1), ("road", 2)]
  functions := []

/-- A list as it is written. -/
def listed (es : List Sexpr) : Sexpr :=
  .list es default

/-- A name as it is written. -/
def named (name : String) : Sexpr :=
  .atom ⟨name, none⟩

/-- A place was visited, but none that a road to home starts from. -/
def cutOff : Sexpr :=
  listed [named "and", listed [named "visited", named "?x"],
    listed [named "not", listed [named "exists", listed [named "?x"],
      listed [named "and", listed [named "visited", named "?x"],
        listed [named "road", named "?x", named "home"]]]]]

/-- The variable of the quantifier has the name of the one outside and is renamed. -/
theorem cutOff_keeps_meaning :
    let start : ElaborationState := { names := ⟨["?x"]⟩ }
    let c : Condition := .and [.literal ⟨⟨.named "visited", ["?x"]⟩, false⟩,
      .forall [⟨"?x1", "object"⟩] (.or [.literal ⟨⟨.named "visited", ["?x1"]⟩, true⟩,
        .literal ⟨⟨.named "road", ["?x1", "home"]⟩, true⟩])]
    Scope.IsReserved [("?x", "?x")] start ∧
      Reads (condition roads [("?x", "?x")] cutOff) start c { names := ⟨["?x1", "?x"]⟩ } ∧
      ∃ built, Reads (formula roads [("?x", "?x")] false cutOff) start built
          { names := ⟨["?x1", "?x"]⟩ } ∧ c = built.simplified ∧
        (∀ (objects : String → List String) (I : Interpretation) (values : Renaming),
          FixesObjects values.apply → (built.Holds objects I values ↔
            cutOff.IsTrue roads objects I (Scope.environment [("?x", "?x")] values))) ∧
        (built.quantifiedParameters.map (·.name)).Nodup ∧
        ∀ x ∈ built.quantifiedParameters.map (·.name), x ∉ start.reserved := by
  intro start c
  have hreserved : Scope.IsReserved [("?x", "?x")] start := by
    intro x hx
    exact hx
  have hread : Reads (condition roads [("?x", "?x")] cutOff) start c
      { names := ⟨["?x1", "?x"]⟩ } := by
    rw [Reads]
    cbv
  exact ⟨hreserved, hread, condition_keeps_meaning hreserved hread⟩

end Elaboration

end FinitePlanning
