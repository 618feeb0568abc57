import FinitePlanning.Collections
import FinitePlanning.Condition.Traversal

/-!
Negation, simplification, renaming and the variables of conditions, their disjunctive normal form,
and the pulling of existential quantifiers out of conjunctions.
-/

namespace FinitePlanning
namespace Condition

def negateNode : Condition → Condition
  | .true => .false
  | .false => .true
  | .literal l => .literal l.negate
  | .and parts => .or parts
  | .or parts => .and parts
  | .forall ps body => .exists ps body
  | .exists ps body => .forall ps body

/-- The negation of a condition, pushed down to its literals. -/
def negate (c : Condition) : Condition :=
  c.mapBottomUp negateNode

/-- Whether a part decides a conjunction. -/
def isBottom : Condition → Bool
  | .false => .true
  | _ => .false

/-- Whether a part decides a disjunction. -/
def isTop : Condition → Bool
  | .true => .true
  | _ => .false

/-- What a part contributes to a conjunction. -/
def conjunctionParts : Condition → List Condition
  | .true => []
  | .and parts => parts
  | c => [c]

/-- What a part contributes to a disjunction. -/
def disjunctionParts : Condition → List Condition
  | .false => []
  | .or parts => parts
  | c => [c]

/-- Simplifies a node whose children are simplified. -/
def simplifyNode : Condition → Condition
  | .and parts =>
    if parts.any isBottom then .false
    else match parts.flatMap conjunctionParts with
      | [] => .true
      | [c] => c
      | parts => .and parts
  | .or parts =>
    if parts.any isTop then .true
    else match parts.flatMap disjunctionParts with
      | [] => .false
      | [c] => c
      | parts => .or parts
  | .forall ps body => if ps.isEmpty || body.isConstant then body else .forall ps body
  | .exists ps body => if ps.isEmpty || body.isConstant then body else .exists ps body
  | c => c

/-- Flattens nested conjunctions and disjunctions and propagates the truth constants. A quantifier
over a constant is dropped. -/
def simplified (c : Condition) : Condition :=
  c.mapBottomUp simplifyNode

/-- Renames variables, free and bound ones. -/
def rename (r : Renaming) (c : Condition) : Condition :=
  c.mapBottomUp fun
    | .literal l => .literal (l.rename r)
    | .forall ps body => .forall (ps.map (·.rename r)) body
    | .exists ps body => .exists (ps.map (·.rename r)) body
    | c => c

/-- All literals, left to right. -/
def literals (c : Condition) : List Literal :=
  c.walk.filterMap literal?

/-- The parameters of all quantifiers. -/
def quantifiedParameters (c : Condition) : List Parameter :=
  c.walk.flatMap fun
    | .forall ps _ | .exists ps _ => ps
    | _ => []

/-- A list of names in order, each once. -/
def sortedNames (names : List String) : List String :=
  names.eraseDups.mergeSort (· ≤ ·)

/-- The variables that no quantifier binds, in order. Quantifiers are taken to bind variables that
occur nowhere else. -/
def freeVariables (c : Condition) : List String :=
  let bound := c.quantifiedParameters.map (·.name)
  sortedNames ((c.literals.flatMap (·.atom.vars)).filter (· ∉ bound))

def hasUniversalPart (c : Condition) : Bool :=
  c.walk.any fun | .forall .. => .true | _ => .false

def hasDisjunction (c : Condition) : Bool :=
  c.walk.any fun | .or .. => .true | _ => .false

def hasExistentialPart (c : Condition) : Bool :=
  c.walk.any fun | .exists .. => .true | _ => .false

def alternatives? : Condition → Option (List Condition)
  | .or parts => some parts
  | _ => none

/-- Moves the disjunctions below a node above it. -/
def distributeNode : Condition → Condition
  | .and parts =>
    let disjunctions := parts.filterMap alternatives?
    let others := parts.filter (·.alternatives?.isNone)
    if disjunctions.isEmpty then .and others
    else .or ((choices disjunctions).map fun choice => .and (others ++ choice))
  | .or parts => .or (parts.flatMap fun part => part.alternatives?.getD [part])
  | .exists ps body =>
    match body.alternatives? with
    | some parts => .or (parts.map (.exists ps))
    | none => .exists ps body
  | c => c

/-- Disjunctive normal form, with quantifiers below the disjunction. -/
def disjunctiveForm (c : Condition) : Condition :=
  if c.hasDisjunction then (c.mapBottomUp distributeNode).simplified else c

/-- The parameters and the body of an existential quantifier. -/
def existential? : Condition → Option (List Parameter × Condition)
  | .exists ps body => some (ps, body)
  | _ => none

/-- Merges the quantifiers below a node into one. -/
def pullNode : Condition → Condition
  | .and parts =>
    let quantified := parts.filterMap existential?
    let others := parts.filter (·.existential?.isNone)
    if quantified.isEmpty then .and others
    else .exists (quantified.flatMap (·.1)) (.and (others ++ quantified.map (·.2)))
  | .exists ps body =>
    match body.existential? with
    | some (inner, body) => .exists (ps ++ inner) body
    | none => .exists ps body
  | c => c

/-- Merges nested existential quantifiers and pulls them out of conjunctions. -/
def pullExistentials (c : Condition) : Condition :=
  if c.hasExistentialPart then (c.mapBottomUp pullNode).simplified else c

/-- Splits a condition into the variables of an outermost existential quantifier and its body. -/
def splitExistential (c : Condition) : List Parameter × Condition :=
  c.existential?.getD ([], c)

end Condition
end FinitePlanning
