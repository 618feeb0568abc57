import FinitePlanning.Diagnostic.Message
import FinitePlanning.Options

/-!
The resources of a compilation: time, interruptions and the size of the model; and the ways in which
it can fail, with the exit codes of the program. The budget is polled by the loops that may run long.
What a compilation logs stays when it fails.
-/

namespace FinitePlanning

inductive Failure where
  /-- The domain or problem is malformed or uses an unsupported construct. -/
  | input (message : Message)
  /-- An atom depends on its own negation. -/
  | notStratifiable (reason : String)
  | outOfMemory
  | outOfTime
  /-- Two stages disagree. -/
  | inconsistent (reason : String)
deriving Inhabited

namespace Failure

def text : Failure → String
  | input message => message.title
  | notStratifiable reason => "Axioms are not stratifiable: " ++ reason
  | outOfMemory => "Translator ran out of memory"
  | outOfTime => "Translator ran out of time"
  | inconsistent reason => "Critical error: " ++ reason

def exitCode : Failure → Nat
  | outOfMemory => 20
  | outOfTime => 21
  | inconsistent _ => 30
  | input _ | notStratifiable _ => 31

end Failure

inductive LogLevel where
  | info
  | warn
deriving DecidableEq, Repr

def LogLevel.text : LogLevel → String
  | .info => "INFO"
  | .warn => "WARN"

structure LogEntry where
  level : LogLevel
  message : String
deriving DecidableEq, Repr

def LogEntry.text (e : LogEntry) : String :=
  e.level.text ++ " " ++ e.message

structure Budget where
  /-- Whether interruptions are listened to. -/
  listens : Bool := true
  /-- Whether the time limit has passed. -/
  timeIsUp : Bool := false
  maxModelAtoms : Option Nat := none
  /-- The time that the search for invariants has taken, read before each candidate. -/
  searchTime : Nat → Duration := fun _ => 0
deriving Inhabited

/-- What changes while a compilation runs. -/
structure Progress where
  /-- Number of ticks since the budget was last checked. -/
  ticks : Nat := 0
  /-- Interruptions that were sent and not yet noticed. -/
  interruptions : Nat := 0
  /-- The log, newest entry first. -/
  log : List LogEntry := []
deriving Repr, Inhabited

/-- A step of a compilation. -/
abbrev Compilation := ExceptT Failure (StateM Progress)

namespace Compilation

def log (level : LogLevel) (message : String) : Compilation Unit :=
  modify fun p => { p with log := ⟨level, message⟩ :: p.log }

def info (message : String) : Compilation Unit :=
  log .info message

def warn (message : String) : Compilation Unit :=
  log .warn message

def ofResult {α : Type} (r : Result α) : Compilation α :=
  match r with
  | .ok a => pure a
  | .error message => throw (.input message)

end Compilation

namespace Budget

/-- A budget without limits. The search for invariants may take its time. -/
def unlimited (searchTime : Nat → Duration := fun _ => 0) : Budget :=
  { listens := false, searchTime }

/-- The budget that options grant. What is counted of the time is its first nanosecond, as it alone
exceeds a limit of zero. -/
def ofOptions (o : Options) : Budget :=
  { listens := false, timeIsUp := o.timeIsUp, maxModelAtoms := o.maxModelAtoms,
    searchTime := fun _ => 1 }

/-- Sends an interruption. Yields whether it was sent. -/
def interrupt (b : Budget) : StateM Progress Bool := do
  if b.listens then modify fun p => { p with interruptions := p.interruptions + 1 }
  return b.listens

/-- Number of ticks between two checks. -/
def ticksPerCheck : Nat := 1024

/-- Fails if an interruption was sent or the time limit has passed. -/
def check (b : Budget) : Compilation Unit := do
  let p ← get
  if 0 < p.interruptions then
    set { p with interruptions := p.interruptions - 1 }
    Compilation.warn "Translation interrupted"
    throw .outOfTime
  else if b.timeIsUp then
    Compilation.warn "Time limit reached"
    throw .outOfTime

/-- Counts one iteration of a loop and checks the budget every so often. -/
def tick (b : Budget) : Compilation Unit := do
  let p ← get
  if p.ticks + 1 < ticksPerCheck then
    set { p with ticks := p.ticks + 1 }
  else
    set { p with ticks := 0 }
    b.check

/-- Calls `tick` a number of times, up to the first failure. Yields the number of successes. -/
def tickTimes (b : Budget) : Nat → StateM Progress Nat
  | 0 => return 0
  | n + 1 => do
    match ← (b.tick).run with
    | .ok () => return (← tickTimes b n) + 1
    | .error _ => return 0

def checkModelSize (b : Budget) (atoms : Nat) : Compilation Unit :=
  match b.maxModelAtoms with
  | none => pure ()
  | some most =>
    if most < atoms then do
      Compilation.warn ("The model has more than " ++ toString most ++ " atoms")
      throw .outOfMemory
    else pure ()

end Budget

/-- The number of bytes that can be addressed. -/
def addressableBytes : Nat := Nat.pow 2 47

/-- Whether an allocation of some bytes is granted. -/
def canAllocate (bytes : Nat) : Bool :=
  bytes < addressableBytes

/-- Grows a list of `size` items of `itemBytes` bytes. -/
def checkGrowth (size itemBytes additional : Nat) : Except Failure Unit :=
  if canAllocate ((size + additional) * itemBytes) then pure () else throw .outOfMemory

end FinitePlanning
