import FinitePlanning.Proofs.Condition.Traversal
import FinitePlanning.Proofs.Sexpr.Reader
import FinitePlanning.Task.EffectReader

/-!
The elaboration works off stacks of formulas and of effects. Here its results are given by the
structure of what is read: a formula is read from its parts, and a nested effect is flattened part
by part, from left to right.
-/

namespace FinitePlanning
namespace Elaboration

variable {α β : Type}

theorem throw_bind (e : Message) (f : α → Elaboration β) :
    (throw e : Elaboration α) >>= f = throw e :=
  rfl

/-! ### Formulas -/

def junction (conjunctive : Bool) (parts : List Condition) : Condition :=
  if conjunctive then .and parts else .or parts

def quantifier (universal : Bool) (ps : List Parameter) (body : Condition) : Condition :=
  if universal then .forall ps body else .exists ps body

mutual

/-- Reads a condition by recursion, or the negation of it, into negation normal form. -/
def readFormula (d : Declarations) (scope : Scope) (negated : Bool) : Sexpr → Elaboration Condition
  | .atom symbol => throw (.invalid (Sexpr.atom symbol) "Expected a condition")
  | .list [] _ => return if negated then .false else .true
  | .list (.list es place :: _) _ => throw (.invalid (Sexpr.list es place) "Expected an atom")
  | .list (.atom head :: args) span =>
    let whole := Sexpr.list (.atom head :: args) span
    match Connective.ofKeyword? head.name with
    | none => return .literal ⟨← atom d scope whole, negated⟩
    | some .and => return junction (!negated) (← readFormulas d scope negated args)
    | some .or => return junction negated (← readFormulas d scope negated args)
    | some .not =>
      match args with
      | [arg] => readFormula d scope (!negated) arg
      | _ => throw (.invalid whole "`not` expects exactly one argument")
    | some .imply =>
      match args with
      | [premise, conclusion] => do
        let premise ← readFormula d scope (!negated) premise
        let conclusion ← readFormula d scope negated conclusion
        return junction negated [premise, conclusion]
      | _ => throw (.invalid whole "`imply` expects exactly two arguments")
    | some .forall =>
      match args with
      | [vars, body] => do
        let (parameters, inner) ← quantified d scope vars
        return quantifier (!negated) parameters (← readFormula d inner negated body)
      | _ => throw (.invalid whole "Expected a list of variables and a condition")
    | some .exists =>
      match args with
      | [vars, body] => do
        let (parameters, inner) ← quantified d scope vars
        return quantifier negated parameters (← readFormula d inner negated body)
      | _ => throw (.invalid whole "Expected a list of variables and a condition")

def readFormulas (d : Declarations) (scope : Scope) (negated : Bool) :
    List Sexpr → Elaboration (List Condition)
  | [] => return []
  | e :: rest => do
    let c ← readFormula d scope negated e
    return c :: (← readFormulas d scope negated rest)

end

theorem readFormulas_eq_mapM (d : Declarations) (scope : Scope) (negated : Bool)
    (es : List Sexpr) :
    readFormulas d scope negated es = es.mapM (readFormula d scope negated) := by
  induction es with
  | nil => rw [readFormulas, List.mapM_nil]
  | cons e es ih => rw [readFormulas, ih, List.mapM_cons]

theorem build_junctionShell (conjunctive : Bool) (cs : List Condition) :
    build cs (junctionShell conjunctive) = pure (junction conjunctive cs) := by
  cases conjunctive <;> rfl

theorem build_quantifierShell (universal : Bool) (ps : List Parameter) (c : Condition) :
    build [c] (quantifierShell universal ps) = pure (quantifier universal ps c) := by
  cases universal <;> rfl

/-- Working off a stack reads a formula and puts the condition on top of those that are finished. -/
def ReadsOnStack (d : Declarations) (e : Sexpr) : Prop :=
  ∀ scope negated stack done, readAll d (.enter e negated scope :: stack) done = do
    readAll d stack ((← readFormula d scope negated e) :: done)

section

variable {d : Declarations} {scope : Scope} {negated : Bool} {es : List Sexpr}
  {stack : List Todo} {done : List Condition}

theorem readAll_build {shell : Condition.Shell} {n : Nat} {node : Condition} (cs : List Condition)
    (hlength : cs.length = n) (hbuild : build cs shell = pure node) :
    readAll d (.exit shell n :: stack) (cs.reverse ++ done) = readAll d stack (node :: done) := by
  rw [readAll, Condition.take_finished hlength, Condition.drop_finished hlength, hbuild, pure_bind]

theorem readAll_enterAll (h : ∀ e ∈ es, ReadsOnStack d e) :
    readAll d (es.map (.enter · negated scope) ++ stack) done =
      es.mapM (readFormula d scope negated) >>= fun cs => readAll d stack (cs.reverse ++ done) := by
  induction es generalizing done with
  | nil => simp
  | cons e es ih =>
      rw [List.forall_mem_cons] at h
      rw [List.map_cons, List.cons_append, h.1, List.mapM_cons]
      simp only [bind_assoc, pure_bind, List.reverse_cons, List.append_assoc]
      exact bind_congr fun c => ih h.2

theorem readAll_openJunction (h : ∀ e ∈ es, ReadsOnStack d e) (conjunctive : Bool) :
    readAll d (openJunction conjunctive negated scope es stack) done =
      readFormulas d scope negated es >>= fun cs =>
        readAll d stack (junction conjunctive cs :: done) := by
  rw [openJunction, readAll_enterAll h, readFormulas_eq_mapM]
  exact Condition.bind_mapM_congr fun cs hcs =>
    readAll_build cs hcs (build_junctionShell conjunctive cs)

end

theorem readsOnStack (d : Declarations) (e : Sexpr) : ReadsOnStack d e := by
  induction e using Sexpr.induction with
  | atom symbol =>
      intro scope negated stack done
      rw [readAll, readFormula, throw_bind]
  | list es span ih =>
      intro scope negated stack done
      cases es with
      | nil => rw [readAll, readFormula, pure_bind]
      | cons head args =>
          cases head with
          | list es place => rw [readAll, readFormula, throw_bind]
          | atom head =>
              have hargs : ∀ e ∈ args, ReadsOnStack d e :=
                fun e he => ih e (List.mem_cons_of_mem _ he)
              rw [readAll.eq_def, readFormula.eq_def]
              dsimp only
              cases Connective.ofKeyword? head.name with
              | none => simp only [bind_assoc, pure_bind]
              | some connective =>
                  cases connective with
                  | and | or =>
                      dsimp only
                      rw [readAll_openJunction hargs, bind_assoc]
                      rfl
                  | not =>
                      rcases args with _ | ⟨arg, _ | ⟨other, args⟩⟩
                      case cons.nil => exact ih arg (by simp) ..
                      all_goals rfl
                  | imply =>
                      rcases args with _ | ⟨premise, _ | ⟨conclusion, _ | ⟨other, args⟩⟩⟩
                      case cons.cons.nil =>
                        dsimp only
                        rw [hargs premise (by simp), bind_assoc]
                        refine bind_congr fun c => ?_
                        rw [hargs conclusion (by simp), bind_assoc]
                        refine bind_congr fun c' => ?_
                        exact readAll_build [c, c'] rfl (build_junctionShell negated [c, c'])
                      all_goals rfl
                  | «forall» | «exists» =>
                      rcases args with _ | ⟨bound, _ | ⟨body, _ | ⟨other, args⟩⟩⟩
                      case cons.cons.nil =>
                        dsimp only
                        rw [bind_assoc]
                        refine bind_congr fun r => ?_
                        rw [hargs body (by simp), bind_assoc]
                        refine bind_congr fun c => ?_
                        exact readAll_build [c] rfl (build_quantifierShell _ r.1 c)
                      all_goals rfl

/-- Reading a formula on a stack comes to an end with the condition that the recursion returns. -/
theorem formula_eq (d : Declarations) (scope : Scope) (negated : Bool) (e : Sexpr) :
    formula d scope negated e = readFormula d scope negated e := by
  rw [formula, readsOnStack, bind_assoc]
  simp [readAll, single]

/-! ### Effects -/

mutual

/-- Flattens an effect by recursion and adds what it does to the outcome. -/
def flatten (d : Declarations) (within : Enclosure) (o : Outcome) : Sexpr → Elaboration Outcome
  | .atom symbol => throw (.invalid (Sexpr.atom symbol) "Expected an effect")
  | .list [] _ => return o
  | .list (.list es place :: _) _ => throw (.invalid (Sexpr.list es place) "Expected an atom")
  | .list (.atom head :: args) span =>
    let whole := Sexpr.list (.atom head :: args) span
    match EffectKeyword.ofKeyword? head.name with
    | some .and => flattenList d within o args
    | some .forall =>
      match args with
      | [vars, body] => do
        let (parameters, inner) ← quantified d within.scope vars
        let parameters := within.parameters ++ parameters
        flatten d { within with parameters, scope := inner } o body
      | _ => throw (.invalid whole "Expected a list of variables and an effect")
    | some .when =>
      match args with
      | [premise, body] => do
        let premise ← condition d within.scope premise
        flatten d { within with conditions := within.conditions ++ [premise] } o body
      | _ => throw (.invalid whole "Expected a condition and an effect")
    | some .increase => do
      unless within.parameters.isEmpty && within.conditions.isEmpty do
        throw (.invalid whole
          "Cost increases are only supported as unconditional top-level effects")
      if o.cost.isSome then
        throw (.invalid whole "Action has more than one cost effect")
      let c ← (cost d within.scope whole args : Result Cost)
      return { o with cost := some c }
    | some .not =>
      match args with
      | [a] => return o.add within (← effectAtom d within.scope a).negative
      | _ => throw (.invalid whole "`not` expects exactly one argument")
    | none => return o.add within (← effectAtom d within.scope whole).positive

def flattenList (d : Declarations) (within : Enclosure) (o : Outcome) :
    List Sexpr → Elaboration Outcome
  | [] => return o
  | e :: rest => do flattenList d within (← flatten d within o e) rest

end

/-- Working off a stack flattens the first effect, and then the others. -/
def FlattensOnStack (d : Declarations) (e : Sexpr) : Prop :=
  ∀ within stack o, flattenAll d (⟨e, within⟩ :: stack) o = do
    flattenAll d stack (← flatten d within o e)

theorem flattenAll_pendingAll {d : Declarations} {within : Enclosure} {es : List Sexpr}
    {stack : List PendingEffect} {o : Outcome} (h : ∀ e ∈ es, FlattensOnStack d e) :
    flattenAll d (pendingAll within es ++ stack) o =
      flattenList d within o es >>= flattenAll d stack := by
  induction es generalizing o with
  | nil => rw [flattenList, pure_bind]; rfl
  | cons e es ih =>
      rw [List.forall_mem_cons] at h
      rw [flattenList, bind_assoc]
      exact (h.1 ..).trans (bind_congr fun o' => ih h.2)

theorem flattensOnStack (d : Declarations) (e : Sexpr) : FlattensOnStack d e := by
  induction e using Sexpr.induction with
  | atom symbol =>
      intro within stack o
      rw [flattenAll, flatten, throw_bind]
  | list es span ih =>
      intro within stack o
      cases es with
      | nil => rw [flattenAll, flatten, pure_bind]
      | cons head args =>
          cases head with
          | list es place => rw [flattenAll, flatten, throw_bind]
          | atom head =>
              have hargs : ∀ e ∈ args, FlattensOnStack d e :=
                fun e he => ih e (List.mem_cons_of_mem _ he)
              rw [flattenAll.eq_def, flatten.eq_def]
              dsimp only
              cases EffectKeyword.ofKeyword? head.name with
              | none => simp only [bind_assoc, pure_bind]
              | some keyword =>
                  cases keyword with
                  | and => exact flattenAll_pendingAll hargs
                  | not =>
                      rcases args with _ | ⟨arg, _ | ⟨other, args⟩⟩
                      case cons.nil => simp only [bind_assoc, pure_bind]
                      all_goals rfl
                  | «forall» | when =>
                      rcases args with _ | ⟨bound, _ | ⟨body, _ | ⟨other, args⟩⟩⟩
                      case cons.cons.nil =>
                        dsimp only
                        rw [bind_assoc]
                        exact bind_congr fun r => hargs body (by simp) ..
                      all_goals rfl
                  | increase =>
                      dsimp only
                      split
                      next =>
                        split
                        next => rfl
                        next => simp only [bind_assoc, pure_bind]
                      next => rfl

/-- Flattening an effect on a stack returns what the recursion does. -/
theorem effect_eq (d : Declarations) (within : Enclosure) (o : Outcome) (e : Sexpr) :
    effect d within o e = flatten d within o e := by
  rw [effect, flattensOnStack]
  simp [flattenAll]

end Elaboration
end FinitePlanning
