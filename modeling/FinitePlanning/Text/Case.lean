import FinitePlanning.Text.CaseTable

/-!
Lower casing of words. All characters are mapped one by one but for the capital sigma, whose lower
case form depends on whether it ends a word, and the dotted capital I, which becomes two characters.
-/

namespace FinitePlanning
namespace Text

def LowerRow.lower? (row : LowerRow) (code : Nat) : Option Nat :=
  if row.first ≤ code && code ≤ row.last && (code - row.first) % row.step == 0 then
    some (code + row.offset).toNat
  else
    none

/-- The lower case form of a character on its own. -/
def lowerChar (c : Char) : List Char :=
  if c.toNat = 0x130 then ['i', Char.ofNat 0x307]
  else match lowerRows.findSome? (·.lower? c.toNat) with
    | some code => [Char.ofNat code]
    | none => [c]

/-- Whether the first character that is not skipped is a letter with case. -/
def reachesCased (cs : List Char) : Bool :=
  match cs.dropWhile (inRanges caseIgnorableRanges ·.toNat) with
  | [] => false
  | c :: _ => inRanges casedRanges c.toNat

/-- The capital sigma, whose lower case form depends on its neighbours. -/
def capitalSigma : Char := 'Σ'

/-- Lower cases the characters that follow `before`, which is given in reverse. -/
def lowercaseAfter (before : List Char) : List Char → List Char
  | [] => []
  | c :: rest =>
    let lowered :=
      if c = capitalSigma then
        if reachesCased before && !reachesCased rest then ['ς'] else ['σ']
      else lowerChar c
    lowered ++ lowercaseAfter (c :: before) rest

def lowercase (word : List Char) : List Char :=
  lowercaseAfter [] word

end Text
end FinitePlanning
