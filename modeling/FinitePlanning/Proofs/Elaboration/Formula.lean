import FinitePlanning.Proofs.Elaboration.Reading
import FinitePlanning.Proofs.Elaboration.Recursion
import FinitePlanning.Proofs.Semantics.Formula

/-!
Elaborated formulas are over the declared predicates and objects and the variables in scope, and
they bind variables that were not reserved before.
-/

namespace FinitePlanning

open Elaboration

variable {d : Declarations} {t : Task} {scope inner : Scope} {s s' s'' : ElaborationState}

/-- The declarations are those of a task. -/
structure Declarations.Describes (d : Declarations) (t : Task) : Prop where
  objects : d.objects = t.objects.map (·.name)
  predicates : ∀ entry ∈ d.predicates, t.HasArity (.named entry.1) entry.2

/-- If a predicate is a type, it belongs to the hierarchy. -/
def TypeHierarchy.Covers (h : TypeHierarchy) (p : Predicate) : Prop :=
  ∀ type, p = .type type → h.contains type = true

/-- The variables in scope stand for variables of the task. -/
def Scope.IsOver (scope : Scope) (vars : List String) : Prop :=
  ∀ x ∈ scope.map (·.2), isVariable x = true ∧ x ∈ vars

theorem isOver_nil : Scope.IsOver [] [] :=
  List.forall_mem_nil _

namespace Elaboration

/-! ### Atoms -/

theorem reads_arguments {p q : Predicate} {n expected : Nat} {e : Message}
    (htype : d.types.Covers q)
    (h : Reads (if n = expected then pure q else throw e) s p s') :
    n = expected ∧ p = q ∧ d.types.Covers p ∧ s.reserved ⊆ s'.reserved := by
  split at h
  next heq =>
    obtain ⟨rfl, rfl⟩ := reads_pure h
    exact ⟨heq, rfl, htype, List.Subset.refl _⟩
  next => exact absurd h not_reads_throw

/-- The number of arguments that what a head denotes has. -/
def arityOf (d : Declarations) (head : String) : Nat :=
  if head = "=" then 2 else (d.predicates.lookup head).getD 1

theorem reads_predicate {head : Symbol} {n : Nat} {p : Predicate}
    (h : Reads (predicate d head n) s p s') :
    n = arityOf d head.name ∧ p = d.denotes head.name ∧ d.types.Covers p ∧
      s.reserved ⊆ s'.reserved := by
  rw [predicate] at h
  rw [arityOf, Declarations.denotes]
  split at h
  next hequal =>
    rw [if_pos hequal, if_pos hequal]
    exact reads_arguments nofun h
  next hequal =>
    rw [if_neg hequal, if_neg hequal]
    split at h
    next expected hlookup =>
      rw [hlookup]
      obtain ⟨q, s₁, hget, h⟩ := reads_bind h
      cases hget
      dsimp only at h
      split at h
      next =>
        -- the warning about a type of the same name reserves nothing
        obtain ⟨_, s₂, hset, h⟩ := reads_bind h
        obtain ⟨_, s₃, hwarn, h⟩ := reads_bind h
        cases hset
        cases hwarn
        have h := reads_arguments (d := d) (q := .named head.name) nofun h
        exact h
      next => exact reads_arguments nofun h
    next hlookup =>
      rw [hlookup]
      split at h
      next htype => exact reads_arguments (fun _ heq => by cases heq; exact htype) h
      next => exact absurd h not_reads_throw_bind

theorem hasArity_denotes (hd : d.Describes t) (head : String) :
    t.HasArity (d.denotes head) (arityOf d head) := by
  rw [arityOf, Declarations.denotes]
  split
  next => exact show t.HasArity .equal 2 from rfl
  next =>
    cases hlookup : d.predicates.lookup head with
    | none => exact show t.HasArity (.type head) 1 from rfl
    | some n => exact hd.predicates _ (mem_of_lookup hlookup)

theorem of_headed {e : Sexpr} {complaint : String} {head : Symbol} {es : List Sexpr}
    (h : headed e complaint = .ok (head, es)) : ∃ span, e = .list (.atom head :: es) span := by
  cases e with
  | atom symbol => cases h
  | list elements span =>
      cases elements with
      | nil => cases h
      | cons first rest =>
          cases first with
          | list inner place => cases h
          | atom symbol => cases h; exact ⟨span, rfl⟩

/-- What an atom is read as. -/
theorem reads_atom {e : Sexpr} {a : Atom} (h : Reads (atom d scope e) s a s') :
    ∃ head es, headed e "Expected an atom" = .ok (head, es) ∧
      a.args.length = arityOf d head.name ∧ a.predicate = d.denotes head.name ∧
      List.Forall₂ (fun e x => term d scope e = .ok x) es a.args ∧ s.reserved ⊆ s'.reserved := by
  rw [atom] at h
  obtain ⟨⟨head, es⟩, s₁, hread, h⟩ := reads_bind h
  obtain ⟨hhead, rfl⟩ := reads_result hread
  obtain ⟨args, s₂, hread, h⟩ := reads_bind h
  obtain ⟨hargs, rfl⟩ := reads_result hread
  obtain ⟨p, s₃, hp, h⟩ := reads_bind h
  obtain ⟨rfl, rfl⟩ := reads_pure h
  obtain ⟨harity, hp, -, hgrows⟩ := reads_predicate hp
  exact ⟨head, es, hhead, harity, hp, forall₂_of_mapM hargs, hgrows⟩

theorem covers_of_atom {e : Sexpr} {a : Atom} (h : Reads (atom d scope e) s a s') :
    d.types.Covers a.predicate := by
  rw [atom] at h
  obtain ⟨_, s₁, -, h⟩ := reads_bind h
  obtain ⟨args, s₂, -, h⟩ := reads_bind h
  obtain ⟨p, s₃, hp, h⟩ := reads_bind h
  obtain ⟨rfl, -⟩ := reads_pure h
  exact (reads_predicate hp).2.2.1

theorem isOver_of_term (hd : d.Describes t) {vars : List String} (hscope : scope.IsOver vars)
    {e : Sexpr} {x : String} (h : term d scope e = .ok x) :
    (isVariable x = true → x ∈ vars) ∧ (isVariable x = false → x ∈ t.objects.map (·.name)) := by
  rw [term] at h
  split at h
  next => cases h
  next symbol _ =>
    cases hvariable : symbol.isVariable with
    | true =>
        rw [hvariable, if_pos rfl] at h
        cases hlookup : scope.lookup symbol.name with
        | none =>
            rw [hlookup] at h
            cases h
        | some y =>
            rw [hlookup] at h
            cases h
            obtain ⟨hx, hmem⟩ := hscope x (List.mem_map_of_mem (mem_of_lookup hlookup))
            exact ⟨fun _ => hmem, fun hfalse => absurd (hx.symm.trans hfalse) Bool.noConfusion⟩
    | false =>
        rw [hvariable, if_neg Bool.false_ne_true] at h
        split at h
        next hmem =>
          cases h
          exact ⟨fun htrue => absurd (hvariable.symm.trans htrue) Bool.noConfusion,
            fun _ => hd.objects ▸ hmem⟩
        next => cases h

theorem isOver_of_atom (hd : d.Describes t) {vars : List String} (hscope : scope.IsOver vars)
    {e : Sexpr} {a : Atom} (h : Reads (atom d scope e) s a s') :
    a.IsOver t vars ∧ s.reserved ⊆ s'.reserved := by
  obtain ⟨head, es, -, harity, hp, hargs, hgrows⟩ := reads_atom h
  refine ⟨⟨hp ▸ harity ▸ hasArity_denotes hd head.name, fun x hx => ?_⟩, hgrows⟩
  obtain ⟨e, -, hx⟩ := exists_of_mem_forall₂_right hargs hx
  exact isOver_of_term hd hscope hx

/-! ### Conditions -/

/-- A condition within the scope of some variables, whose quantified variables are new. -/
structure IsRead (t : Task) (vars : List String) (s : ElaborationState) (c : Condition)
    (s' : ElaborationState) : Prop where
  inScope : c.IsScoped t .full vars
  declares : Declares s c.quantifiedParameters s'

theorem isRead_junction {vars : List String} {cs : List Condition} (conjunctive : Bool)
    (hscope : ∀ c ∈ cs, c.IsScoped t .full vars)
    (h : Declares s (cs.flatMap (·.quantifiedParameters)) s') :
    IsRead t vars s (junction conjunctive cs) s' := by
  cases conjunctive with
  | true => exact ⟨.and hscope, Condition.quantifiedParameters_and cs ▸ h⟩
  | false => exact ⟨.or rfl hscope, Condition.quantifiedParameters_or cs ▸ h⟩

theorem isRead_quantifier {vars : List String} {ps : List Parameter} {body : Condition}
    (universal : Bool) (hps : Declares s ps s')
    (h : IsRead t (vars ++ ps.map (·.name)) s' body s'') :
    IsRead t vars s (quantifier universal ps body) s'' := by
  have hdeclares := hps.append h.declares
  cases universal with
  | true =>
      exact ⟨.forall rfl h.inScope, Condition.quantifiedParameters_forall ps body ▸ hdeclares⟩
  | false =>
      exact ⟨.exists rfl h.inScope, Condition.quantifiedParameters_exists ps body ▸ hdeclares⟩

theorem binds_of_quantified {e : Sexpr} {ps : List Parameter}
    (h : Reads (quantified d scope e) s (ps, inner) s') :
    ∃ symbols, Binds true [] s scope symbols ps inner s' := by
  rw [quantified] at h
  split at h
  next => exact absurd h not_reads_throw
  next =>
    obtain ⟨symbols, q, hsymbols, h⟩ := reads_bind h
    obtain ⟨-, rfl⟩ := reads_result hsymbols
    exact ⟨symbols, binds_of_reads h⟩

/-- Within a quantifier its variables are in scope. -/
theorem Binds.isOver {rename : Bool} {seen vars : List String} {symbols : List Pddl.TypedSymbol}
    {ps : List Parameter} (h : Binds rename seen s scope symbols ps inner s')
    (hscope : scope.IsOver vars) : inner.IsOver (vars ++ ps.map (·.name)) := by
  intro x hx
  rw [h.scope, List.mem_append, List.mem_reverse] at hx
  rcases hx with hx | hx
  · exact ⟨h.areVariables.isVariable_of_mem hx, List.mem_append_right _ hx⟩
  · exact ⟨(hscope x hx).1, List.mem_append_left _ (hscope x hx).2⟩

/-! ### Induction over runs -/

/-- The elements of a list were read one after the other. -/
inductive ReadsEach (R : Sexpr → ElaborationState → Condition → ElaborationState → Prop) :
    List Sexpr → ElaborationState → List Condition → ElaborationState → Prop
  | nil (s : ElaborationState) : ReadsEach R [] s [] s
  | cons {e : Sexpr} {es : List Sexpr} {c : Condition} {cs : List Condition}
      {s s' s'' : ElaborationState} :
      R e s c s' → ReadsEach R es s' cs s'' → ReadsEach R (e :: es) s (c :: cs) s''

/-- A property of the runs on formulas holds of a run if it holds of the runs on the parts. -/
structure FollowsFromParts (d : Declarations)
    (P : Scope → Bool → Sexpr → ElaborationState → Condition → ElaborationState → Prop) :
    Prop where
  truth (scope : Scope) (negated : Bool) (span : Span) (s : ElaborationState) :
    P scope negated (.list [] span) s (if negated then .false else .true) s
  literal {scope : Scope} {negated : Bool} {head : Symbol} {args : List Sexpr} {span : Span}
    {s s' : ElaborationState} {a : Atom} (hhead : Connective.ofKeyword? head.name = none)
    (h : Reads (atom d scope (.list (.atom head :: args) span)) s a s') :
    P scope negated (.list (.atom head :: args) span) s (.literal ⟨a, negated⟩) s'
  and {scope : Scope} {negated : Bool} {head : Symbol} {args : List Sexpr} {span : Span}
    {s s' : ElaborationState} {cs : List Condition}
    (hhead : Connective.ofKeyword? head.name = some .and)
    (h : ReadsEach (P scope negated) args s cs s') :
    P scope negated (.list (.atom head :: args) span) s (junction (!negated) cs) s'
  or {scope : Scope} {negated : Bool} {head : Symbol} {args : List Sexpr} {span : Span}
    {s s' : ElaborationState} {cs : List Condition}
    (hhead : Connective.ofKeyword? head.name = some .or)
    (h : ReadsEach (P scope negated) args s cs s') :
    P scope negated (.list (.atom head :: args) span) s (junction negated cs) s'
  not {scope : Scope} {negated : Bool} {head : Symbol} {arg : Sexpr} {span : Span}
    {s s' : ElaborationState} {c : Condition}
    (hhead : Connective.ofKeyword? head.name = some .not) (h : P scope (!negated) arg s c s') :
    P scope negated (.list [.atom head, arg] span) s c s'
  imply {scope : Scope} {negated : Bool} {head : Symbol} {premise conclusion : Sexpr}
    {span : Span} {s s' s'' : ElaborationState} {c c' : Condition}
    (hhead : Connective.ofKeyword? head.name = some .imply)
    (h : P scope (!negated) premise s c s') (h' : P scope negated conclusion s' c' s'') :
    P scope negated (.list [.atom head, premise, conclusion] span) s
      (junction negated [c, c']) s''
  «forall» {scope inner : Scope} {negated : Bool} {head : Symbol} {bound body : Sexpr}
    {span : Span} {s s' s'' : ElaborationState} {ps : List Parameter} {c : Condition}
    (hhead : Connective.ofKeyword? head.name = some .forall)
    (hbound : Reads (quantified d scope bound) s (ps, inner) s')
    (h : P inner negated body s' c s'') :
    P scope negated (.list [.atom head, bound, body] span) s (quantifier (!negated) ps c) s''
  «exists» {scope inner : Scope} {negated : Bool} {head : Symbol} {bound body : Sexpr}
    {span : Span} {s s' s'' : ElaborationState} {ps : List Parameter} {c : Condition}
    (hhead : Connective.ofKeyword? head.name = some .exists)
    (hbound : Reads (quantified d scope bound) s (ps, inner) s')
    (h : P inner negated body s' c s'') :
    P scope negated (.list [.atom head, bound, body] span) s (quantifier negated ps c) s''

theorem readsEach_of_readFormulas {negated : Bool} {es : List Sexpr} {cs : List Condition}
    {R : Sexpr → ElaborationState → Condition → ElaborationState → Prop}
    (h : ∀ e ∈ es, ∀ s c s', Reads (readFormula d scope negated e) s c s' → R e s c s')
    (hread : Reads (readFormulas d scope negated es) s cs s') : ReadsEach R es s cs s' := by
  induction es generalizing s cs with
  | nil =>
      rw [readFormulas] at hread
      obtain ⟨rfl, rfl⟩ := reads_pure hread
      exact .nil s
  | cons e es ih =>
      rw [List.forall_mem_cons] at h
      rw [readFormulas] at hread
      obtain ⟨c, q, hc, hread⟩ := reads_bind hread
      obtain ⟨cs', q', hcs, hread⟩ := reads_bind hread
      obtain ⟨rfl, rfl⟩ := reads_pure hread
      exact .cons (h.1 s c q hc) (ih h.2 hcs)

theorem FollowsFromParts.of_reads
    {P : Scope → Bool → Sexpr → ElaborationState → Condition → ElaborationState → Prop}
    (hP : FollowsFromParts d P) {e : Sexpr} {negated : Bool} {c : Condition}
    (h : Reads (formula d scope negated e) s c s') : P scope negated e s c s' := by
  rw [formula_eq] at h
  induction e using Sexpr.induction generalizing scope negated s c s' with
  | atom symbol =>
      rw [readFormula] at h
      exact absurd h not_reads_throw
  | list es span ih =>
      cases es with
      | nil =>
          rw [readFormula] at h
          obtain ⟨rfl, rfl⟩ := reads_pure h
          exact hP.truth scope negated span s
      | cons head args =>
          cases head with
          | list es place =>
              rw [readFormula] at h
              exact absurd h not_reads_throw
          | atom head =>
              rw [readFormula.eq_def] at h
              dsimp only at h
              have hargs : ∀ e ∈ args, ∀ s c s', Reads (readFormula d scope negated e) s c s' →
                  P scope negated e s c s' :=
                fun e he s c s' => ih e (List.mem_cons_of_mem _ he)
              split at h
              next hhead =>
                obtain ⟨a, q, ha, h⟩ := reads_bind h
                obtain ⟨rfl, rfl⟩ := reads_pure h
                exact hP.literal hhead ha
              next hhead =>
                obtain ⟨cs, q, hcs, h⟩ := reads_bind h
                obtain ⟨rfl, rfl⟩ := reads_pure h
                exact hP.and hhead (readsEach_of_readFormulas hargs hcs)
              next hhead =>
                obtain ⟨cs, q, hcs, h⟩ := reads_bind h
                obtain ⟨rfl, rfl⟩ := reads_pure h
                exact hP.or hhead (readsEach_of_readFormulas hargs hcs)
              next hhead =>
                split at h
                next arg => exact hP.not hhead (ih arg (by simp) h)
                next => exact absurd h not_reads_throw
              next hhead =>
                split at h
                next premise conclusion =>
                  obtain ⟨c₁, q, h₁, h⟩ := reads_bind h
                  obtain ⟨c₂, q', h₂, h⟩ := reads_bind h
                  obtain ⟨rfl, rfl⟩ := reads_pure h
                  exact hP.imply hhead (ih premise (by simp) h₁) (ih conclusion (by simp) h₂)
                next => exact absurd h not_reads_throw
              next hhead =>
                split at h
                next bound body =>
                  obtain ⟨⟨ps, inner⟩, q, hps, h⟩ := reads_bind h
                  obtain ⟨c, q', hc, h⟩ := reads_bind h
                  obtain ⟨rfl, rfl⟩ := reads_pure h
                  exact hP.forall hhead hps (ih body (by simp) hc)
                next => exact absurd h not_reads_throw
              next hhead =>
                split at h
                next bound body =>
                  obtain ⟨⟨ps, inner⟩, q, hps, h⟩ := reads_bind h
                  obtain ⟨c, q', hc, h⟩ := reads_bind h
                  obtain ⟨rfl, rfl⟩ := reads_pure h
                  exact hP.exists hhead hps (ih body (by simp) hc)
                next => exact absurd h not_reads_throw

/-! ### Scopes of conditions -/

/-- What all formulas of a list have, their conditions have together. -/
theorem isRead_of_readsEach {vars : List String} {es : List Sexpr} {cs : List Condition}
    (h : ReadsEach (fun _ => IsRead t vars) es s cs s') :
    (∀ c ∈ cs, c.IsScoped t .full vars) ∧ Declares s (cs.flatMap (·.quantifiedParameters)) s' := by
  induction h with
  | nil s => exact ⟨List.forall_mem_nil _, .refl s⟩
  | cons hc _ ih =>
      exact ⟨List.forall_mem_cons.mpr ⟨hc.inScope, ih.1⟩, hc.declares.append ih.2⟩

theorem ReadsEach.imp {R Q : Sexpr → ElaborationState → Condition → ElaborationState → Prop}
    (himp : ∀ {e s c s'}, R e s c s' → Q e s c s') {es : List Sexpr} {cs : List Condition}
    (h : ReadsEach R es s cs s') : ReadsEach Q es s cs s' := by
  induction h with
  | nil s => exact .nil s
  | cons hc _ ih => exact .cons (himp hc) ih

theorem isRead_of_quantified {vars : List String} {bound : Sexpr} {ps : List Parameter}
    {body : Condition} {universal : Bool} (hbound : Reads (quantified d scope bound) s (ps, inner) s')
    (hscope : scope.IsOver vars)
    (h : inner.IsOver (vars ++ ps.map (·.name)) → IsRead t (vars ++ ps.map (·.name)) s' body s'') :
    IsRead t vars s (quantifier universal ps body) s'' := by
  obtain ⟨symbols, hbinds⟩ := binds_of_quantified hbound
  exact isRead_quantifier _ hbinds.declares (h (hbinds.isOver hscope))

theorem followsFromParts_isRead (hd : d.Describes t) : FollowsFromParts d
    fun scope _ _ s c s' => ∀ vars, scope.IsOver vars → IsRead t vars s c s' where
  truth scope negated span s vars hscope := by
    cases negated with
    | true => exact ⟨.falsity, Condition.quantifiedParameters_false ▸ .refl s⟩
    | false => exact ⟨.truth, Condition.quantifiedParameters_true ▸ .refl s⟩
  literal hhead h vars hscope := by
    obtain ⟨hover, hgrows⟩ := isOver_of_atom hd hscope h
    exact ⟨.literal hover, Condition.quantifiedParameters_literal _ ▸ .of_subset hgrows⟩
  and hhead h vars hscope := by
    obtain ⟨hscoped, hdeclares⟩ := isRead_of_readsEach (h.imp fun hc => hc vars hscope)
    exact isRead_junction _ hscoped hdeclares
  or hhead h vars hscope := by
    obtain ⟨hscoped, hdeclares⟩ := isRead_of_readsEach (h.imp fun hc => hc vars hscope)
    exact isRead_junction _ hscoped hdeclares
  not hhead h := h
  imply hhead h h' vars hscope := by
    have h := h vars hscope
    have h' := h' vars hscope
    refine isRead_junction _ (by simp [h.inScope, h'.inScope]) ?_
    simpa using h.declares.append h'.declares
  «forall» hhead hbound h vars hscope := isRead_of_quantified hbound hscope (h _)
  «exists» hhead hbound h vars hscope := isRead_of_quantified hbound hscope (h _)

theorem isRead_of_formula (hd : d.Describes t) {e : Sexpr} {negated : Bool} {vars : List String}
    (hscope : scope.IsOver vars) {c : Condition}
    (h : Reads (formula d scope negated e) s c s') : IsRead t vars s c s' :=
  (followsFromParts_isRead hd).of_reads h vars hscope

theorem isRead_of_condition (hd : d.Describes t) {e : Sexpr} {vars : List String}
    (hscope : scope.IsOver vars) {c : Condition} (h : Reads (condition d scope e) s c s') :
    IsRead t vars s c s' ∧ c.IsSimplified := by
  rw [condition] at h
  obtain ⟨c', q, hc, h⟩ := reads_bind h
  obtain ⟨rfl, rfl⟩ := reads_pure h
  have hc := isRead_of_formula hd hscope hc
  exact ⟨⟨hc.inScope.simplified,
    hc.declares.of_subperm (Condition.Shrinks.simplified c').quantified⟩,
    Condition.isSimplified_simplified c'⟩

end Elaboration
end FinitePlanning
