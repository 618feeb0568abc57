import FinitePlanning.Atom

/-!
Conditions: first-order formulas in negation normal form.
-/

namespace FinitePlanning

inductive Condition where
  | true
  | false
  | literal (literal : Literal)
  | and (parts : List Condition)
  | or (parts : List Condition)
  | forall (parameters : List Parameter) (body : Condition)
  | exists (parameters : List Parameter) (body : Condition)
deriving Repr, Inhabited

namespace Condition

mutual

def decEq : (a b : Condition) → Decidable (a = b)
  | .true, b => by cases b <;> first | exact isTrue rfl | exact isFalse nofun
  | .false, b => by cases b <;> first | exact isTrue rfl | exact isFalse nofun
  | .literal l, b => match b with
    | .literal m => decidable_of_iff (l = m) (by simp)
    | .true | .false | .and _ | .or _ | .forall .. | .exists .. => isFalse nofun
  | .and ps, b => match b with
    | .and qs => @decidable_of_iff _ (ps = qs) (by simp) (decEqAll ps qs)
    | .true | .false | .literal _ | .or _ | .forall .. | .exists .. => isFalse nofun
  | .or ps, b => match b with
    | .or qs => @decidable_of_iff _ (ps = qs) (by simp) (decEqAll ps qs)
    | .true | .false | .literal _ | .and _ | .forall .. | .exists .. => isFalse nofun
  | .forall xs c, b => match b with
    | .forall ys d =>
      @decidable_of_iff _ (xs = ys ∧ c = d) (by simp) (@instDecidableAnd _ _ _ (decEq c d))
    | .true | .false | .literal _ | .and _ | .or _ | .exists .. => isFalse nofun
  | .exists xs c, b => match b with
    | .exists ys d =>
      @decidable_of_iff _ (xs = ys ∧ c = d) (by simp) (@instDecidableAnd _ _ _ (decEq c d))
    | .true | .false | .literal _ | .and _ | .or _ | .forall .. => isFalse nofun

def decEqAll : (as bs : List Condition) → Decidable (as = bs)
  | [], [] => isTrue rfl
  | [], _ :: _ => isFalse nofun
  | _ :: _, [] => isFalse nofun
  | a :: as, b :: bs =>
    @decidable_of_iff _ (a = b ∧ as = bs) (by simp)
      (@instDecidableAnd _ _ (decEq a b) (decEqAll as bs))

end

instance : DecidableEq Condition := decEq

mutual

def text : Condition → String
  | .true => "true"
  | .false => "false"
  | .literal l => if l.negated then "(not " ++ l.atom.text ++ ")" else l.atom.text
  | .and parts => "(and " ++ textSeparated parts ++ ")"
  | .or parts => "(or " ++ textSeparated parts ++ ")"
  | .forall ps body => "(forall (" ++ Parameter.listText ps ++ ") " ++ text body ++ ")"
  | .exists ps body => "(exists (" ++ Parameter.listText ps ++ ") " ++ text body ++ ")"

/-- The texts of several conditions, separated by blanks. -/
def textSeparated : List Condition → String
  | [] => ""
  | [c] => text c
  | c :: rest => text c ++ " " ++ textSeparated rest

end

mutual

/-- Number of nodes. -/
def size : Condition → Nat
  | .and parts | .or parts => sizeAll parts + 1
  | .forall _ body | .exists _ body => size body + 1
  | .true | .false | .literal _ => 1

def sizeAll : List Condition → Nat
  | [] => 0
  | c :: rest => size c + sizeAll rest

end

theorem size_pos (c : Condition) : 0 < c.size := by
  cases c <;> simp [size]

theorem sizeAll_append (as bs : List Condition) :
    sizeAll (as ++ bs) = sizeAll as + sizeAll bs := by
  induction as with
  | nil => simp [sizeAll]
  | cons a as ih => simp [sizeAll, ih, Nat.add_assoc]

/-- The direct parts of a condition. -/
def parts : Condition → List Condition
  | .and parts | .or parts => parts
  | .forall _ body | .exists _ body => [body]
  | .true | .false | .literal _ => []

theorem sizeAll_parts_lt (c : Condition) : sizeAll c.parts < c.size := by
  cases c <;> simp [parts, size, sizeAll]

def isConstant : Condition → Bool
  | .true | .false => .true
  | _ => .false

/-- Elements of the top-level conjunction, the condition itself if it is no conjunction. -/
def conjuncts : Condition → List Condition
  | .and parts => parts
  | .true => []
  | c => [c]

def literal? : Condition → Option Literal
  | .literal l => some l
  | _ => none

/-- The literals of a condition that is a literal or a conjunction of literals. -/
def conjunction? (c : Condition) : Option (List Literal) :=
  c.conjuncts.mapM literal?

end Condition
end FinitePlanning
