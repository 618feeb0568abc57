import FinitePlanning.Diagnostic.Message
import FinitePlanning.Sexpr.Basic
import FinitePlanning.Text.Case

/-!
Reading of a text as one list. The tokens of the lisp-like syntax are parentheses and words. Blanks
and comments, which run from a semicolon to the end of the line, separate tokens. A question mark
begins a new word, and has to be followed by a character of it. The reader keeps the lists that are
open, innermost first, so that it needs no more than one pass over the tokens.
-/

namespace FinitePlanning
namespace Sexpr

inductive TokenKind where
  | opening
  | closing
  | word (text : String)
deriving DecidableEq, Repr

/-- A token, with its first and its last byte. -/
structure Token where
  kind : TokenKind
  first : Nat
  last : Nat
deriving DecidableEq, Repr

/-- What is wrong with a text that is not exactly one list. -/
inductive Fault where
  | bareQuestionMark (place : Nat)
  | empty
  | noList (first : Token)
  | unclosed (place : Nat)
  | trailing (token : Token)
deriving DecidableEq, Repr

def Fault.message (source : Source) : Fault → Message
  | .bareQuestionMark i =>
    .invalidSpan (.ofBytes source i i) "Expected a variable name after `?`"
  | .empty => .error "Empty input, expected `(`"
  | .noList t => .invalidSpan (.ofBytes source t.first t.last) "Expected `(`"
  | .unclosed i =>
    .invalidSpan (.ofBytes source i i) "Unexpected end of input, unclosed list"
  | .trailing t =>
    .invalidSpan (.ofBytes source t.first t.last) "Unexpected tokens after the end of the list"

/-- A character that ends a word and belongs to none. -/
def isDelimiter (c : Char) : Bool :=
  c == '(' || c == ')' || c == ';' || Text.isBlank c

/-- A character that continues a word. -/
def continuesWord (c : Char) : Bool :=
  !isDelimiter c && c != '?'

/-- The token of a word that begins at `offset`. -/
def wordToken (offset : Nat) (word : List Char) : Token :=
  ⟨.word (String.ofList (Text.lowercase word)), offset, offset + byteLength word - 1⟩

theorem length_dropWhile_le {α : Type} (p : α → Bool) (l : List α) :
    (l.dropWhile p).length ≤ l.length := by
  induction l with
  | nil => simp
  | cons a l ih =>
    rw [List.dropWhile_cons]
    split
    · exact Nat.le_succ_of_le ih
    · simp

/-- The tokens of the characters that begin at `offset`. -/
def tokens (offset : Nat) : List Char → Except Fault (List Token)
  | [] => .ok []
  | c :: rest =>
    if c = ';' then
      let comment := rest.takeWhile (· != '\n')
      tokens (offset + c.utf8Size + byteLength comment) (rest.dropWhile (· != '\n'))
    else if Text.isBlank c then
      tokens (offset + c.utf8Size) rest
    else if c = '(' then
      return ⟨.opening, offset, offset⟩ :: (← tokens (offset + c.utf8Size) rest)
    else if c = ')' then
      return ⟨.closing, offset, offset⟩ :: (← tokens (offset + c.utf8Size) rest)
    else if c = '?' ∧ rest.head?.all isDelimiter then
      .error (.bareQuestionMark offset)
    else
      let word := c :: rest.takeWhile continuesWord
      return wordToken offset word ::
        (← tokens (offset + byteLength word) (rest.dropWhile continuesWord))
termination_by cs => cs.length
decreasing_by
  all_goals simp only [List.length_cons]
  all_goals first
    | exact Nat.lt_succ_of_le (length_dropWhile_le _ _)
    | exact Nat.lt_succ_self _

def tokenize (text : String) : Except Fault (List Token) :=
  tokens 0 text.toList

/-- A list that is not closed yet: the place of its parenthesis and its elements, last first. -/
structure OpenList where
  start : Nat
  elements : List Sexpr

def OpenList.add (l : OpenList) (e : Sexpr) : OpenList :=
  { l with elements := e :: l.elements }

def OpenList.close (l : OpenList) (source : Source) (last : Nat) : Sexpr :=
  .list l.elements.reverse (.ofBytes source l.start last)

/-- Reads up to the end of the outermost open list. Yields it and the tokens that follow. -/
def closeAll (source : Source) (outer : List OpenList) (current : OpenList) :
    List Token → Except Fault (Sexpr × List Token)
  | [] => .error (.unclosed current.start)
  | token :: rest =>
    match token.kind, outer with
    | .opening, _ => closeAll source (current :: outer) ⟨token.first, []⟩ rest
    | .word text, _ =>
      let symbol := ⟨text, some (.ofBytes source token.first token.last)⟩
      closeAll source outer (current.add (.atom symbol)) rest
    | .closing, [] => .ok (current.close source token.last, rest)
    | .closing, parent :: outer =>
      closeAll source outer (parent.add (current.close source token.last)) rest

/-- The one list that the tokens form. -/
def ofTokens (source : Source) : List Token → Except Fault Sexpr
  | [] => .error .empty
  | first :: rest =>
    if first.kind = .opening then do
      let (e, trailing) ← closeAll source [] ⟨first.first, []⟩ rest
      match trailing with
      | [] => .ok e
      | token :: _ => .error (.trailing token)
    else .error (.noList first)

def read? (source : Source) : Except Fault Sexpr :=
  tokenize source.text >>= ofTokens source

def read (source : Source) : Result Sexpr :=
  (read? source).mapError (·.message source)

end Sexpr
end FinitePlanning
