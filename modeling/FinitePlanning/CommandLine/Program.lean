import FinitePlanning.CommandLine.Arguments
import FinitePlanning.Compile.Outcome
import FinitePlanning.Files.Tree
import FinitePlanning.FiniteDomain.Text
import FinitePlanning.Pddl.DomainFile

/-!
The program: reads a domain and a problem, compiles them and writes the compiled task.
-/

namespace FinitePlanning
namespace CommandLine

/-- What a run of the program leaves, apart from files. -/
structure Response where
  exitCode : Nat
  /-- The text on the standard output. -/
  output : String := ""
  log : List LogEntry := []
  /-- The error that ended the run. -/
  error : Option String := none
deriving Repr, Inhabited

/-- Whether entries of a level are shown. -/
def Verbosity.shows : Verbosity → LogLevel → Bool
  | error, _ => false
  | warn, level => level = .warn
  | info, _ | debug, _ | trace, _ => true

/-- The exit code of arguments that cannot be understood. -/
def usageCode : Nat := 2

/-- The exit code of a failure that is not due to the input. -/
def criticalCode : Nat := 30

variable {m : Type → Type} [Monad m] (fs : FileSystem m)

/-- Reads a planning file. -/
def readSource (path : String) : m (Result Source) := do
  match ← fs.readText? path with
  | some text => return .ok ⟨text, some path⟩
  | none => return .error (.error ("Could not read " ++ path))

/-- The path of the domain file, which is searched for if it is not given. -/
def domainPath (a : Arguments) : m (Result String) := do
  if !(← fs.contains a.problem) then
    return .error (.error ("Problem file " ++ a.problem ++ " does not exist"))
  match a.domain with
  | some path => return .ok path
  | none => match ← Pddl.DomainFile.find fs.contains a.problem with
    | .ok path => return .ok path
    | .error e =>
      return .error (e.withTitle "Consider specifying the domain with the option -d/--domain")

/-- Reads the domain and the problem. -/
def readSources (a : Arguments) : m (Result (Source × Source)) := do
  match ← domainPath fs a with
  | .error e => return .error e
  | .ok path => match ← readSource fs path with
    | .error e => return .error e
    | .ok domain => match ← readSource fs a.problem with
      | .error e => return .error e
      | .ok problem => return .ok (domain, problem)

/-- Compiles the given files. -/
def compile (a : Arguments) (sources : Result (Source × Source)) : Compilation Outcome := do
  let (domain, problem) ← Compilation.ofResult sources
  Compilation.info ("Domain: " ++ domain.path.getD "")
  Compilation.info ("Problem: " ++ problem.path.getD "")
  let outcome ← Compile.run domain problem a.options (.ofOptions a.options)
  Compile.logStatistics outcome.task
  return outcome

/-- Writes the files of an outcome. Yields the path of the first one that cannot be written. -/
def writeFiles (a : Arguments) (outcome : Outcome) : m (Option String) := do
  let task := if a.printsTask then [] else [(a.sasFile, outcome.task.text)]
  let groups := a.dumpGroups.toList.map fun path => (path, (outcome.groups?.getD {}).text)
  let failed ← (task ++ groups).findM? fun (path, text) => return !(← fs.write path text)
  return failed.map (·.1)

/-- Compiles the files that the arguments name, and writes the results. -/
def execute (a : Arguments) : m Response := do
  if a.timeLimit = some .unusable then
    return { exitCode := criticalCode, error := some "The time limit is out of range" }
  let (result, progress) := Id.run ((compile a (← readSources fs a)).run.run {})
  let log := progress.log.reverse
  match result with
  | .error failure => return { exitCode := failure.exitCode, log, error := some failure.text }
  | .ok outcome =>
    let output := if a.printsTask then outcome.task.text else ""
    match ← writeFiles fs a outcome with
    | some path =>
      return { exitCode := criticalCode, output, log, error := some ("Could not write " ++ path) }
    | none => return { exitCode := outcome.exitCode, output, log := log ++ [⟨.info, "Done!"⟩] }

/-- Runs the program with the given arguments. -/
def run (arguments : List String) : m Response := do
  match Arguments.parse arguments with
  | .error .help => return { exitCode := 0, output := Refusal.text .help ++ "\n" }
  | .error refusal => return { exitCode := usageCode, error := some refusal.text }
  | .ok a => execute fs a

end CommandLine
end FinitePlanning
