import FinitePlanning.Options
import FinitePlanning.Text.Number

/-!
The arguments of the program. Options may stand before and after the problem file, and each of them
may be given once. After a double dash everything is a file.
-/

namespace FinitePlanning
namespace CommandLine

/-- Options without a value. -/
inductive Flag where
  | stdout
  | fullEncoding
  | keepUnreachableFacts
  | keepUnimportantVariables
  | skipVariableReordering
  | dumpTask
deriving DecidableEq, Repr

namespace Flag

def all : List Flag :=
  [stdout, fullEncoding, keepUnreachableFacts, keepUnimportantVariables, skipVariableReordering,
    dumpTask]

def name : Flag → String
  | stdout => "stdout"
  | fullEncoding => "full-encoding"
  | keepUnreachableFacts => "keep-unreachable-facts"
  | keepUnimportantVariables => "keep-unimportant-variables"
  | skipVariableReordering => "skip-variable-reordering"
  | dumpTask => "dump-task"

end Flag

/-- Options with a value. -/
inductive Setting where
  | domain
  | sasFile
  | maxCandidates
  | maxInvariantTime
  | layerStrategy
  | timeLimit
  | maxModelAtoms
  | dumpGroups
  | logLevel
deriving DecidableEq, Repr

namespace Setting

def all : List Setting :=
  [domain, sasFile, maxCandidates, maxInvariantTime, layerStrategy, timeLimit, maxModelAtoms,
    dumpGroups, logLevel]

def name : Setting → String
  | domain => "domain"
  | sasFile => "sas-file"
  | maxCandidates => "invariant-generation-max-candidates"
  | maxInvariantTime => "invariant-generation-max-time"
  | layerStrategy => "layer-strategy"
  | timeLimit => "time-limit"
  | maxModelAtoms => "max-model-atoms"
  | dumpGroups => "dump-groups"
  | logLevel => "log-level"

end Setting

/-- How much is logged. -/
inductive Verbosity where
  | error
  | warn
  | info
  | debug
  | trace
deriving DecidableEq, Repr

/-- A time limit is only told apart from none at all if it has passed from the start. -/
inductive TimeLimit where
  | passed
  | ahead
  /-- Negative, or too long for a clock. -/
  | unusable
deriving DecidableEq, Repr

/-- Why the program does not start. -/
inductive Refusal where
  | help
  | unknownOption (argument : String)
  | unexpectedValue (option : String)
  | missingValue (option : String)
  | invalidValue (option value : String)
  | repeatedOption (option : String)
  | unexpectedArgument (argument : String)
  | missingProblem
deriving DecidableEq, Repr

def Refusal.text : Refusal → String
  | help => "Usage: finite-planning [OPTIONS] <PROBLEM>"
  | unknownOption argument => "unknown option " ++ argument
  | unexpectedValue option => "option --" ++ option ++ " takes no value"
  | missingValue option => "option --" ++ option ++ " needs a value"
  | invalidValue option value => "invalid value " ++ value ++ " of " ++ option
  | repeatedOption option => "option --" ++ option ++ " cannot be repeated"
  | unexpectedArgument argument => "unexpected argument " ++ argument
  | missingProblem => "the problem file is missing"

/-- An argument or an option with its value. -/
inductive Item where
  | flag (f : Flag)
  | setting (s : Setting) (value : String)
  | file (name : String)
deriving DecidableEq, Repr

/-- Whether an argument can be the value of the option before it. -/
def isValue (argument : String) : Bool :=
  !argument.startsWith "-" || argument = "-"

/-- An option with its value, if that is part of the same argument. -/
inductive OptionText where
  | flag (f : Flag)
  | setting (s : Setting) (value : Option String)
deriving DecidableEq, Repr

/-- Reads a long option without its dashes. -/
def longOption (text : String) : Except Refusal OptionText :=
  let (name, value) := match text.splitOn "=" with
    | [] => ("", none)
    | [name] => (name, none)
    | name :: rest => (name, some ("=".intercalate rest))
  match Flag.all.find? (·.name = name), Setting.all.find? (·.name = name), value with
  | some f, _, none => pure (.flag f)
  | some f, _, some _ => throw (.unexpectedValue f.name)
  | none, some s, value => pure (.setting s value)
  | none, none, _ => throw (if name = "help" ∧ value = none then .help else .unknownOption name)

/-- Reads a short option without its dash. -/
def shortOption (text : String) : Except Refusal OptionText :=
  match text.toList with
  | ['d'] => pure (.setting .domain none)
  | 'd' :: '=' :: value | 'd' :: value => pure (.setting .domain (some (String.ofList value)))
  | 'h' :: _ => throw .help
  | _ => throw (.unknownOption text)

/-- Reads an argument that is no file. -/
def optionText (argument : String) : Except Refusal OptionText :=
  if argument.startsWith "--" then longOption (argument.drop 2).toString
  else shortOption (argument.drop 1).toString

/-- Tells options, their values and files apart. -/
def items : List String → Except Refusal (List Item)
  | [] => return []
  | "--" :: rest => return rest.map .file
  | argument :: rest =>
    if isValue argument then return .file argument :: (← items rest)
    else do
      match ← optionText argument with
      | .flag f => return .flag f :: (← items rest)
      | .setting s (some value) => return .setting s value :: (← items rest)
      | .setting s none =>
        match rest with
        | [] => throw (.missingValue s.name)
        | value :: rest =>
          if isValue value then return .setting s value :: (← items rest)
          else throw (.missingValue s.name)

/-- The option of an item. -/
def Item.option? : Item → Option String
  | flag f => some f.name
  | setting s _ => some s.name
  | file _ => none

/-- The first name that occurs twice. -/
def repeated? : List String → Option String
  | [] => none
  | name :: rest => if name ∈ rest then some name else repeated? rest

/-- Reads a number below `2 ^ 64`. -/
def readNatural? (text : String) : Option Nat :=
  let digits := match text.toList with
    | '+' :: rest => rest
    | cs => cs
  let value := Text.digitsValue digits
  if digits ≠ [] ∧ digits.all Char.isDigit ∧ value < Nat.pow 2 64 then some value else none

/-- The longest time limit in seconds that a clock can handle. -/
def maxSeconds : Nat := Nat.pow 2 63

/-- The position of the first digit of a decimal, counted from the point. -/
def magnitude (d : Text.Decimal) : Int :=
  (Nat.toDigits 10 d.digits).length + d.exponent

/-- Whether the nearest double precision number is zero. -/
def isTiny (d : Text.Decimal) : Bool :=
  d.digits = 0 || magnitude d < -330
    || (magnitude d < 0 && d.digits * Nat.pow 2 1075 ≤ Nat.pow 10 (-d.exponent).toNat)

/-- Classifies the limit of a positive number of seconds. What is rounded to zero nanoseconds has
passed. -/
def TimeLimit.ofDecimal (d : Text.Decimal) : TimeLimit :=
  if d.digits = 0 ∨ magnitude d < -9 then passed
  else if 20 < magnitude d then unusable
  else
    let num := d.digits * Nat.pow 10 d.exponent.toNat
    let den := Nat.pow 10 (-d.exponent).toNat
    if 2 * num * Nat.pow 10 9 ≤ den then passed
    else if maxSeconds * den ≤ num then unusable
    else ahead

/-- Classifies the limit of a negative number of seconds. -/
def TimeLimit.ofNegative (d : Text.Decimal) : TimeLimit :=
  if isTiny d then passed else unusable

/-- Reads a number of seconds. -/
def readTimeLimit? (text : String) : Option TimeLimit :=
  let (negative, rest) := Text.spanSign text.toList
  if Text.isNonFinite (rest.map Char.toLower) then some .unusable
  else (Text.readDecimal? rest).map fun d => if negative then .ofNegative d else .ofDecimal d

/-- Reads a level by its name or number. -/
def readVerbosity? (text : String) : Option Verbosity :=
  match readNatural? text with
  | some n => [.error, .warn, .info, .debug, .trace][n - 1]?.filter fun _ => 0 < n
  | none => match String.ofList (text.toList.map Char.toLower) with
    | "error" => some .error
    | "warn" => some .warn
    | "info" => some .info
    | "debug" => some .debug
    | "trace" => some .trace
    | _ => none

structure Arguments where
  problem : String
  /-- The domain file, if it is not to be searched for. -/
  domain : Option String
  sasFile : String
  /-- Whether the compiled task is printed. -/
  printsTask : Bool
  dumpGroups : Option String
  options : Options
  timeLimit : Option TimeLimit
  verbosity : Verbosity
deriving Repr

/-- The value of a setting, if it is given. -/
def value? (items : List Item) (s : Setting) : Option String :=
  items.findSome? fun
    | .setting t value => if t = s then some value else none
    | _ => none

/-- The value of a setting in the form in which a reader yields it. -/
def read {α : Type} (items : List Item) (s : Setting) (reader : String → Option α) :
    Except Refusal (Option α) :=
  match value? items s with
  | none => return none
  | some text => match reader text with
    | some a => return some a
    | none => throw (.invalidValue s.name text)

/-- A path is not empty. -/
def readPath? (text : String) : Option String :=
  if text = "" then none else some text

/-- The problem file. -/
def problemOf (items : List Item) : Except Refusal String :=
  let files := items.filterMap fun
    | .file name => some name
    | _ => none
  match files with
  | [] => throw .missingProblem
  | [name] => if name = "" then throw (.invalidValue "problem" name) else return name
  | _ :: second :: _ => throw (.unexpectedArgument second)

namespace Arguments

def ofItems (items : List Item) : Except Refusal Arguments := do
  match repeated? (items.filterMap (·.option?)) with
  | some name => throw (.repeatedOption name)
  | none => pure ()
  let problem ← problemOf items
  let domain ← read items .domain readPath?
  let sasFile ← read items .sasFile readPath?
  let dumpGroups ← read items .dumpGroups readPath?
  let maxCandidates ← read items .maxCandidates readNatural?
  let maxInvariantTime ← read items .maxInvariantTime readNatural?
  let strategy ← read items .layerStrategy fun text => (LayerStrategy.ofText text).toOption
  let timeLimit ← read items .timeLimit readTimeLimit?
  let maxModelAtoms ← read items .maxModelAtoms readNatural?
  let verbosity ← read items .logLevel readVerbosity?
  let given (f : Flag) : Bool := .flag f ∈ items
  return {
    problem, domain, dumpGroups, timeLimit
    sasFile := sasFile.getD "output.sas"
    printsTask := given .stdout
    verbosity := verbosity.getD .info
    options := {
      usePartialEncoding := !given .fullEncoding
      filterUnreachableFacts := !given .keepUnreachableFacts
      filterUnimportantVariables := !given .keepUnimportantVariables
      reorderVariables := !given .skipVariableReordering
      invariantMaxCandidates := maxCandidates.getD 100000
      invariantMaxTime := .ofSeconds (maxInvariantTime.getD 300)
      layerStrategy := strategy.getD .min
      timeIsUp := timeLimit = some .passed
      maxModelAtoms
      dumpTask := given .dumpTask } }

def parse (arguments : List String) : Except Refusal Arguments := do
  ofItems (← items arguments)

end Arguments
end CommandLine
end FinitePlanning
