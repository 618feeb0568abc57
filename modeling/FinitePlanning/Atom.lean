import FinitePlanning.Diagnostic.Message

/-!
Atoms and literals, with the order in which sets of them are listed.
-/

namespace FinitePlanning

inductive Predicate where
  /-- A predicate of the domain, possibly derived. -/
  | named (name : String)
  /-- Holds of the objects of a type and of its subtypes. -/
  | type (name : String)
  /-- Holds of every object and itself. -/
  | equal
deriving DecidableEq, Hashable, Repr, Inhabited

namespace Predicate

def text : Predicate → String
  | named name | type name => name
  | equal => "="

/-- Position of the kind of a predicate in the order of predicates. -/
def rank : Predicate → Nat
  | named _ => 0
  | type _ => 1
  | equal => 2

instance : Ord Predicate :=
  ⟨compareLex (compareOn rank) (compareOn text)⟩

end Predicate

/-- A predicate with its arguments, which are variables or objects. -/
structure Atom where
  predicate : Predicate
  args : List String
deriving DecidableEq, Hashable, Repr, Inhabited

/-- A renaming of variables, the first entry of a name being the one that counts. -/
abbrev Renaming := List (String × String)

def Renaming.apply (r : Renaming) (name : String) : String :=
  (r.lookup name).getD name

namespace Atom

instance : Ord Atom :=
  ⟨compareLex (compareOn predicate) (compareOn args)⟩

def named (name : String) (args : List String) : Atom :=
  ⟨.named name, args⟩

def text (a : Atom) : String :=
  a.predicate.text ++ "(" ++ ", ".intercalate a.args ++ ")"

def vars (a : Atom) : List String :=
  a.args.filter isVariable

def rename (r : Renaming) (a : Atom) : Atom :=
  { a with args := a.args.map r.apply }

end Atom

/-- An atom or its negation. -/
structure Literal where
  atom : Atom
  negated : Bool
deriving DecidableEq, Hashable, Repr, Inhabited

namespace Literal

instance : Ord Literal :=
  ⟨compareLex (compareOn atom) (compareOn negated)⟩

def negate (l : Literal) : Literal :=
  { l with negated := !l.negated }

def rename (r : Renaming) (l : Literal) : Literal :=
  { l with atom := l.atom.rename r }

/-- The form of a literal that names a value of a variable. -/
def text (l : Literal) : String :=
  (if l.negated then "NegatedAtom " else "Atom ") ++ l.atom.text

end Literal

def Atom.positive (a : Atom) : Literal := ⟨a, false⟩

def Atom.negative (a : Atom) : Literal := ⟨a, true⟩

/-- A variable with its type. -/
structure Parameter where
  name : String
  type : String
deriving DecidableEq, Hashable, Repr, Inhabited

namespace Parameter

def text (p : Parameter) : String :=
  p.name ++ " - " ++ p.type

/-- States that the parameter belongs to its type. -/
def typeAtom (p : Parameter) : Atom :=
  ⟨.type p.type, [p.name]⟩

def rename (r : Renaming) (p : Parameter) : Parameter :=
  { p with name := r.apply p.name }

def listText (parameters : List Parameter) : String :=
  ", ".intercalate (parameters.map text)

end Parameter
end FinitePlanning
