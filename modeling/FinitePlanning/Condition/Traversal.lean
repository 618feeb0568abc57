import FinitePlanning.Collections
import FinitePlanning.Condition.Basic

/-!
Traversals of conditions. They keep the nodes that are still to be visited on a stack of their own,
so that the depth of a condition is not bounded by the call stack.
-/

namespace FinitePlanning
namespace Condition

/-- A compound node without its children. -/
inductive Shell where
  | and
  | or
  | forall (parameters : List Parameter)
  | exists (parameters : List Parameter)

/-- The node with the given children, if their number is right. -/
def Shell.fill? : Shell → List Condition → Option Condition
  | .and, parts => some (.and parts)
  | .or, parts => some (.or parts)
  | .forall ps, [body] => some (.forall ps body)
  | .exists ps, [body] => some (.exists ps body)
  | _, _ => none

/-- The shell of a compound node. -/
def shell? : Condition → Option Shell
  | .and _ => some .and
  | .or _ => some .or
  | .forall ps _ => some (.forall ps)
  | .exists ps _ => some (.exists ps)
  | .true | .false | .literal _ => none

/-- What remains to be done: visit a node, or rebuild one from the children that were finished last. -/
inductive Frame where
  | enter (condition : Condition)
  | rebuild (shell : Shell) (children : Nat)

def Frame.weight : Frame → Nat
  | .enter c => 2 * c.size
  | .rebuild .. => 1

def weight (stack : List Frame) : Nat :=
  total (stack.map Frame.weight)

/-- The stack on which the children of a node are visited before it is rebuilt. -/
def openNode (shell : Shell) (parts : List Condition) (stack : List Frame) : List Frame :=
  parts.map .enter ++ .rebuild shell parts.length :: stack

theorem weight_map_enter (parts : List Condition) :
    weight (parts.map .enter) = 2 * sizeAll parts := by
  induction parts with
  | nil => rfl
  | cons c parts ih =>
    simp only [weight, List.map_cons, total_cons, sizeAll, Frame.weight] at ih ⊢
    omega

theorem weight_openNode_lt {c d : Condition} (h : d.size ≤ c.size) (shell : Shell)
    (stack : List Frame) :
    weight (openNode shell d.parts stack) < weight (.enter c :: stack) := by
  have h₁ := weight_map_enter d.parts
  have h₂ := sizeAll_parts_lt d
  simp only [weight, openNode, List.map_append, List.map_cons, total_append, total_cons,
    Frame.weight] at h₁ ⊢
  omega

theorem weight_tail_lt (frame : Frame) (stack : List Frame) :
    weight stack < weight (frame :: stack) := by
  have : 0 < frame.weight := by
    cases frame with
    | enter c => simpa [Frame.weight] using c.size_pos
    | rebuild => simp [Frame.weight]
  simp only [weight, List.map_cons, total_cons]
  omega

section

variable {m : Type → Type} [Monad m]

/-- Works off a stack, bottom-up: `f` is applied to every node once its children are finished. The
finished conditions are kept last first. -/
def runBottomUp (f : Condition → m Condition) :
    List Frame → List Condition → m (Option Condition)
  | [], done => return done.head?
  | .enter c :: stack, done =>
    match c.shell? with
    | some shell => runBottomUp f (openNode shell c.parts stack) done
    | none => do runBottomUp f stack ((← f c) :: done)
  | .rebuild shell n :: stack, done =>
    match shell.fill? (done.take n).reverse with
    | some node => do runBottomUp f stack ((← f node) :: done.drop n)
    | none => return none
termination_by stack => weight stack
decreasing_by
  · exact weight_openNode_lt (Nat.le_refl _) _ _
  · exact weight_tail_lt _ _
  · exact weight_tail_lt _ _

/-- Rebuilds a condition bottom-up: `f` replaces every node, children before their parent and left
to right. -/
def mapBottomUpM (f : Condition → m Condition) (c : Condition) : m Condition :=
  return (← runBottomUp f [.enter c] []).getD c

/-- What happens to a node on the way down: it is replaced, or kept in a form that is no larger and
whose children are visited. -/
inductive Visit (c : Condition) where
  | replace (replacement : Condition)
  | descend (kept : Condition) (size_le : kept.size ≤ c.size)

/-- Works off a stack, top-down: `f` is applied to every node before its children. -/
def runTopDown (f : (c : Condition) → m (Visit c)) :
    List Frame → List Condition → m (Option Condition)
  | [], done => return done.head?
  | .enter c :: stack, done => do
    match ← f c with
    | .replace replacement => runTopDown f stack (replacement :: done)
    | .descend kept _ =>
      match kept.shell? with
      | some shell => runTopDown f (openNode shell kept.parts stack) done
      | none => runTopDown f stack (kept :: done)
  | .rebuild shell n :: stack, done =>
    match shell.fill? (done.take n).reverse with
    | some node => runTopDown f stack (node :: done.drop n)
    | none => return none
termination_by stack => weight stack
decreasing_by
  · exact weight_tail_lt _ _
  · exact weight_openNode_lt (by assumption) _ _
  · exact weight_tail_lt _ _
  · exact weight_tail_lt _ _

/-- Rebuilds a condition top-down. The subtree of a node that is replaced is not visited. -/
def replaceTopDownM (f : (c : Condition) → m (Visit c)) (c : Condition) : m Condition :=
  return (← runTopDown f [.enter c] []).getD c

end

/-- Rebuilds a condition bottom-up by a function without effects. -/
def mapBottomUp (f : Condition → Condition) (c : Condition) : Condition :=
  Id.run (mapBottomUpM (fun c => pure (f c)) c)

/-- The nodes of the conditions on a stack, parents before their children. -/
def walkAll : List Condition → List Condition
  | [] => []
  | c :: stack => c :: walkAll (c.parts ++ stack)
termination_by stack => sizeAll stack
decreasing_by
  have := sizeAll_parts_lt c
  simp only [sizeAll_append, sizeAll]
  omega

/-- All nodes of a condition in preorder. -/
def walk (c : Condition) : List Condition :=
  walkAll [c]

end Condition
end FinitePlanning
