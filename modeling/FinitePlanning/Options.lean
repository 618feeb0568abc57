/-!
Options of a compilation. They change the size of the compiled task and what is logged, never the
meaning of the task.
-/

namespace FinitePlanning

/-- How derived variables are assigned to axiom layers. -/
inductive LayerStrategy where
  /-- The smallest layer that the dependencies of each variable allow. -/
  | min
  /-- One layer for each component of the dependency graph. -/
  | max
deriving DecidableEq, Repr, Inhabited

namespace LayerStrategy

def text : LayerStrategy → String
  | min => "min"
  | max => "max"

/-- The strategy of a given name, or the text of the error. -/
def ofText (name : String) : Except String LayerStrategy :=
  match name with
  | "min" => .ok min
  | "max" => .ok max
  | _ => .error ("Unknown layer strategy `" ++ name ++ "`, expected `min` or `max`")

end LayerStrategy

/-- A number of nanoseconds. -/
abbrev Duration := Nat

def Duration.ofSeconds (seconds : Nat) : Duration :=
  seconds * 1000000000

structure Options where
  /-- Encode every atom in one variable only. -/
  usePartialEncoding : Bool := true
  /-- Remove the values that cannot be reached in the transition graph of their variable. -/
  filterUnreachableFacts : Bool := true
  /-- Remove the variables that are irrelevant to the goal. -/
  filterUnimportantVariables : Bool := true
  /-- Order the variables by the causal graph instead of the order of the fact groups. -/
  reorderVariables : Bool := true
  invariantMaxCandidates : Nat := 100000
  /-- The time after which the search for invariants is given up. -/
  invariantMaxTime : Duration := .ofSeconds 300
  layerStrategy : LayerStrategy := .min
  /-- Whether the time limit has passed from the start. -/
  timeIsUp : Bool := false
  /-- The largest number of atoms that the model of the grounding program may have. -/
  maxModelAtoms : Option Nat := none
  /-- Log the ground task before it is encoded. -/
  dumpTask : Bool := false
deriving Repr, Inhabited

end FinitePlanning
