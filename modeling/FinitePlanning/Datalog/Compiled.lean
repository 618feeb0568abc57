import Std.Data.HashMap
import FinitePlanning.Collections
import FinitePlanning.Datalog.Rule

/-!
Rules as they are matched. Variables are numbered, and their values are kept in an array that is
overwritten each time a rule fires. Rules remember the positions of the atoms that matched their
conditions; those of a join are found again by the values of the variables that its conditions share.
-/

namespace FinitePlanning
namespace Datalog

/-- An argument of an atom of a compiled rule: a place in the array of values, or an object. -/
inductive Arg where
  | slot (index : Nat)
  | object (id : ObjectId)
deriving DecidableEq, Repr, Inhabited

def Arg.slot? : Arg → Option Nat
  | .slot i => some i
  | .object _ => none

/-- The variables of a rule in the order in which they are numbered. -/
def SplitRule.slots (r : SplitRule) : List String :=
  ((r.head :: r.body).flatMap Pattern.vars).eraseDups

/-- The arguments of an atom, with numbers for the given variables. -/
def Pattern.compile (slots : List String) (p : Pattern) : List Arg :=
  p.args.map fun
    | .variable v => .slot (slots.idxOf v)
    | .object id => .object id

/-- The arguments of an atom that was found. -/
def argsAt (atoms : Array GroundAtom) (i : Nat) : List ObjectId :=
  (atoms.getD i default).args

/-- The atoms that matched a condition of a join, by their values at some positions: those of the
variables that both conditions have. -/
structure JoinIndex where
  positions : List Nat
  atoms : Std.HashMap (List ObjectId) (Array Nat) := {}
deriving Inhabited

namespace JoinIndex

def key (x : JoinIndex) (args : List ObjectId) : List ObjectId :=
  x.positions.map (args.getD · default)

def matching (x : JoinIndex) (key : List ObjectId) : List Nat :=
  (x.atoms.getD key #[]).toList

def add (x : JoinIndex) (args : List ObjectId) (atom : Nat) : JoinIndex :=
  { x with atoms := x.atoms.alter (x.key args) fun seen? => some ((seen?.getD #[]).push atom) }

end JoinIndex

/-- What a rule remembers of the atoms that matched its conditions. -/
inductive Memory where
  | project
  | join (left right : JoinIndex)
  /-- The atoms of each condition, and the number of conditions that no atom matched so far. -/
  | product (seen : List (Array Nat)) (empty : Nat)
deriving Inhabited

namespace Memory

/-- The numbers of the variables that two conditions share, in order. -/
def sharedSlots (left right : List Arg) : List Nat :=
  ((left.filterMap Arg.slot?).filter (· ∈ right.filterMap Arg.slot?)).mergeSort

/-- The index of one of two conditions with the given arguments. -/
def joinIndex (shared : List Nat) (condition : List Arg) : JoinIndex where
  positions := shared.map fun i => condition.idxOf (.slot i)

/-- What a rule with the given conditions remembers at first. -/
def start (body : List (List Arg)) : RuleKind → Memory
  | .project => .project
  | .join =>
    let left := body.getD 0 []
    let right := body.getD 1 []
    let shared := sharedSlots left right
    .join (joinIndex shared left) (joinIndex shared right)
  | .product => .product (body.map fun _ => #[]) body.length

end Memory

/-- Stands for the value of a variable to which none was given yet. -/
def noValue : ObjectId := ⟨4294967295⟩

structure CompiledRule where
  relation : RelationId
  head : List Arg
  body : List (List Arg)
  values : Array ObjectId
  memory : Memory
deriving Inhabited

namespace CompiledRule

def compile (r : SplitRule) : CompiledRule :=
  let slots := r.slots
  let body := r.body.map (·.compile slots)
  { relation := r.head.relation
    head := r.head.compile slots
    body
    values := .replicate slots.length noValue
    memory := .start body r.kind }

/-- Enters the values that an atom gives to the variables of a condition. -/
def bind (values : Array ObjectId) (condition : List Arg) (args : List ObjectId) :
    Array ObjectId :=
  (condition.zip args).foldl (fun values (arg, value) =>
    match arg with
    | .slot i => values.setIfInBounds i value
    | .object _ => values) values

/-- The head with the values that the variables have now. -/
def conclusion (r : CompiledRule) (values : Array ObjectId) : GroundAtom where
  relation := r.relation
  args := r.head.map fun
    | .slot i => values.getD i default
    | .object id => id

/-- Produces the head for each combination of atoms that matched other conditions. -/
def emit (r : CompiledRule) (atoms : Array GroundAtom) (combinations : List (List (Nat × Nat)))
    (values : Array ObjectId) : StateM (Array GroundAtom) (Array ObjectId) :=
  combinations.foldlM (fun values combination => do
    let values := combination.foldl (fun values (condition, atom) =>
      bind values (r.body.getD condition []) (argsAt atoms atom)) values
    modify (·.push (r.conclusion values))
    return values) values

/-- Remembers that an atom matches a condition, and produces all new instances of the head. -/
def fire (r : CompiledRule) (condition atom : Nat) (atoms : Array GroundAtom) :
    StateM (Array GroundAtom) CompiledRule := do
  let args := argsAt atoms atom
  let values := bind r.values (r.body.getD condition []) args
  match r.memory with
  | .project =>
    let values ← r.emit atoms [[]] values
    return { r with values }
  | .join left right =>
    let (mine, theirs) := if condition = 0 then (left, right) else (right, left)
    let combinations := (theirs.matching (mine.key args)).map fun other => [(1 - condition, other)]
    let values ← r.emit atoms combinations values
    let mine := mine.add args atom
    let memory := if condition = 0 then .join mine theirs else .join theirs mine
    return { r with values, memory }
  | .product seen empty =>
    let empty := if (seen.getD condition #[]).isEmpty then empty - 1 else empty
    let seen := seen.modify condition (·.push atom)
    let memory := .product seen empty
    if 0 < empty then return { r with values, memory }
    let others := (List.range seen.length).filter (· ≠ condition)
    let combinations := choices (others.map fun c => (seen.getD c #[]).toList)
    let values ← r.emit atoms (combinations.map others.zip) values
    return { r with values, memory }

end CompiledRule
end Datalog
end FinitePlanning
