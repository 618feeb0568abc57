import FinitePlanning.Task.EffectReader

/-!
Elaboration of a domain and a problem into a task. The initial state lists the true atoms in order of
appearance, and the values of functions.
-/

namespace FinitePlanning
namespace Elaboration

/-- What was read of an initial state. The facts of atoms and assignments are kept newest first. -/
structure InitialState where
  atoms : List Atom := []
  assignments : Assignments := []
  positive : List (Atom × Sexpr) := []
  negative : List (Atom × Sexpr) := []
  sources : List (Atom × Sexpr) := []

namespace InitialState

/-- Adds a fact `(= term value)`. The value of the total cost is irrelevant. -/
def assign (s : InitialState) (d : Declarations) (fact term value : Sexpr) :
    Result InitialState := do
  if term.isAtom totalCost || isTotalCost term then return s
  let term ← functionTerm d [] term
  match value.atom? with
  | none => throw (.invalid value "Expected a number")
  | some symbol =>
    let value ← integer symbol
    if (s.assignments.value? term).any (· != value) then
      let message := Message.invalid fact "Function assigned two different values"
      throw (match s.sources.lookup term with
        | some other => message.info other "previous assignment"
        | none => message)
    return { s with
      assignments := s.assignments.assign term value
      sources := (term, fact) :: s.sources }

/-- Adds one fact. -/
def add (d : Declarations) (s : InitialState) (fact : Sexpr) : Elaboration InitialState := do
  match fact.arguments? "=", fact.arguments? "not" with
  | some [term, value], _ => (s.assign d fact term value : Result InitialState)
  | _, some [a] => return { s with negative := s.negative ++ [(← atom d [] a, fact)] }
  | _, some _ => throw (.invalid fact "`not` expects exactly one argument")
  | _, none =>
    let a ← atom d [] fact
    if a.predicate = .equal then
      throw (.invalid fact "Equality is built-in and cannot appear in the initial state")
    let s' := { s with positive := (a, fact) :: s.positive }
    if (s.positive.lookup a).isSome then
      warn ("Duplicate fact in the initial state: " ++ a.text)
      return s'
    return { s' with atoms := s.atoms ++ [a] }

/-- Fails if a fact is declared both true and false. -/
def checkConsistent (s : InitialState) : Result Unit :=
  s.negative.forM fun (a, fact) =>
    match s.positive.lookup a with
    | none => pure ()
    | some other =>
      throw ((Message.invalid fact
        "Fact is declared both true and false in the initial state").info other
        "declared true here")

end InitialState

def initialState (d : Declarations) (facts : List Sexpr) : Elaboration InitialState := do
  let s ← facts.foldlM (InitialState.add d) {}
  (s.checkConsistent : Result Unit)
  return s

/-- Elaborates an action. An action without effects is dropped. -/
def action (d : Declarations) (a : Pddl.ActionDeclaration) : Elaboration (Option Action) := do
  let (parameters, scope) ← bind d.types false [] [] a.parameters
  let precondition ← match a.precondition with
    | none => pure .true
    | some e => condition d scope e
  let outcome ← match a.effect with
    | none => pure {}
    | some e => effect d { scope } {} e
  if outcome.effects.isEmpty then return none
  return some {
    name := a.name
    parameters
    external := parameters.length
    precondition
    effects := outcome.effects
    cost := outcome.cost }

def axiomOf (d : Declarations) (x : Pddl.DerivedDeclaration) : Elaboration Axiom := do
  let (parameters, scope) ← bind d.types false [] [] x.parameters
  let condition ← condition d scope x.body
  return { name := x.name.name, parameters, external := parameters.length, condition }

def goal (d : Declarations) (p : Pddl.Problem) : Elaboration Condition :=
  match p.goal with
  | some e => ExceptT.adapt (·.withTitle "Invalid goal") (condition d [] e)
  | none => throw ((Message.error "The problem has no goal").info p.name "in problem")

/-- Whether the problem asks for plans of minimal cost. -/
def minimizesCost (p : Pddl.Problem) : Result Bool :=
  match p.metric with
  | none => return false
  | some m =>
    if m.direction = .minimize && isTotalCost m.expression then return true
    else throw (.invalid m.expression "Only `(:metric minimize (total-cost))` is supported")

/-- The task of a domain and a problem. -/
def task (d : Pddl.Domain) (p : Pddl.Problem) : Elaboration Task := do
  if d.name.name ≠ p.domainName.name then
    throw ((Message.invalid p.domainName "Problem refers to another domain").info d.name
      "name of the domain")
  let types ← (Declarations.typeHierarchy d.types : Result _)
  let predicates ← (Declarations.predicateSchemas types d : Result _)
  let functions ← (Declarations.functionSchemas types d : Result _)
  let objects ← (Declarations.objectList types (d.constants ++ p.objects) : Result _)
  let declarations := Declarations.ofSchemas types objects predicates functions
  let actions ← d.actions.filterMapM fun a =>
    (action declarations a).withInfo a.name "when parsing action"
  let axioms ← d.derived.mapM fun x =>
    (axiomOf declarations x).withInfo x.name "when parsing derived predicate"
  let init ← initialState declarations p.init
  let goal ← goal declarations p
  let minimizesCost ← (minimizesCost p : Result Bool)
  return {
    domainName := d.name.name
    problemName := p.name.name
    requirements := d.features
    types, objects, predicates, functions
    init := init.atoms ++ objects.map fun o => ⟨.equal, [o.name, o.name]⟩
    assignments := init.assignments
    goal, actions, axioms, minimizesCost }

end Elaboration

/-- The task of a domain and a problem, and the warnings about them. -/
def Task.elaborate (d : Pddl.Domain) (p : Pddl.Problem) : Result Task × List String :=
  let (result, s) := Id.run ((Elaboration.task d p).run.run {})
  (result, s.warnings.reverse)
end FinitePlanning
