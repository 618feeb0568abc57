import FinitePlanning.Budget
import FinitePlanning.Task.Elaboration
import FinitePlanning.Task.NormalForm

/-!
From the texts of a domain and a problem to a task in normal form.
-/

namespace FinitePlanning
namespace Compile

/-- Reads and elaborates a task. The second component holds the warnings. -/
def elaborated (domain problem : Source) : Result Task × List String :=
  match do return (← Pddl.Domain.read domain, ← Pddl.Problem.read problem) with
  | .error e => (.error e, [])
  | .ok (domain, problem) => Task.elaborate domain problem

/-- The task of a domain and a problem in normal form. -/
def normalized (domain problem : Source) : Compilation Task := do
  let (result, warnings) := elaborated domain problem
  warnings.forM Compilation.warn
  Compilation.ofResult (result >>= Task.normalize)

end Compile
end FinitePlanning
