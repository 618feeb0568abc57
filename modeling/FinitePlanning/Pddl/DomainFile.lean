import FinitePlanning.Diagnostic.Message
import FinitePlanning.Files.Tree
import FinitePlanning.Text.Quoted

/-!
The usual names of the domain file that belongs to a problem file.
-/

namespace FinitePlanning
namespace Pddl
namespace DomainFile

/-- What stands before an ending in one line, if it is something. -/
def stem? (name ending : String) : Option String :=
  let stem := (name.dropEnd ending.length).toString
  if name.endsWith ending ∧ stem ≠ "" ∧ '\n' ∉ stem.toList then some stem else none

/-- The digits between a beginning and the ending of a planning file. -/
def number? (name start : String) : Option String :=
  if name.startsWith start then
    (stem? (name.drop start.length).toString ".pddl").filter (·.toList.all Char.isDigit)
  else none

/-- The name of a domain without a number, with the extension of the problem. -/
def plainName (problem : Path) : String :=
  match problem.extension? with
  | none => "domain.pddl"
  | some "" => "domain"
  | some extension => "domain." ++ extension

/-- The names of the domain of a problem, the best one first. -/
def names (problem : Path) : Result (List String) :=
  match problem.fileName? with
  | none => throw (.error "Invalid file")
  | some file =>
    let paired := (stem? file ".pb.pddl").toList.map (· ++ ".dom.pddl")
    let derived := (stem? file ".pddl").toList.flatMap fun stem =>
      [stem ++ "-domain.pddl", "domain-" ++ stem ++ ".pddl", "domain_" ++ stem ++ ".pddl"]
    let numbered := (number? file "p").toList.map ("d" ++ · ++ ".pddl")
    let instances := (number? file "instance-").toList.map ("domain-" ++ · ++ ".pddl")
    return plainName problem :: paired ++ derived ++ numbered ++ instances

/-- The directories in which a domain may be: the one of the problem, the one above it, and the
domains there. -/
def directories (problem : Path) : List Path :=
  problem.parent?.toList.flatMap fun directory =>
    directory :: directory.parent?.toList.flatMap fun above => [above, above.inside "domains"]

/-- The paths at which a domain may be, the best one first. -/
def candidates (names : List String) (problem : Path) : List String :=
  names.flatMap fun name => (directories problem).map fun directory => (directory.inside name).text

def notFound (names : List String) : Message :=
  .error ("Could not find a corresponding domain file in same or parent directory as the problem "
    ++ "file. Candidates: " ++ Text.quotedList names)

/-- The path of the domain of a problem, given which paths exist. -/
def find {m : Type → Type} [Monad m] (contains : String → m Bool) (problem : String) :
    m (Result String) := do
  let problem := Path.ofText problem
  match names problem with
  | .error e => return .error e
  | .ok names =>
    match ← (candidates names problem).findM? contains with
    | some path => return .ok path
    | none => return .error (notFound names)

end DomainFile
end Pddl
end FinitePlanning
