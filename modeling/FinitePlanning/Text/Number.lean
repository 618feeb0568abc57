/-!
Numbers in planning files. A numeral stands for an integer if it is written as one that fits 64
bits, or if the double precision number nearest to it is an integer below `2 ^ 63`.
-/

namespace FinitePlanning
namespace Text

/-- The digits at the start of a text and what follows them. -/
def spanDigits (cs : List Char) : List Char × List Char :=
  cs.span Char.isDigit

def digitsValue (digits : List Char) : Nat :=
  digits.foldl (fun n c => 10 * n + (c.toNat - '0'.toNat)) 0

/-- An optional sign: whether it is a minus, and what follows it. -/
def spanSign : List Char → Bool × List Char
  | '-' :: rest => (true, rest)
  | '+' :: rest => (false, rest)
  | rest => (false, rest)

def withSign (negative : Bool) (n : Nat) : Int :=
  if negative then -(n : Int) else n

/-- Signed 64 bit integers are below this number. -/
def int64Bound : Nat := Nat.pow 2 63

/-- Reads a signed 64 bit integer. -/
def readInt64? (cs : List Char) : Option Int :=
  let (negative, digits) := spanSign cs
  if digits ≠ [] ∧ digits.all Char.isDigit then
    let value := withSign negative (digitsValue digits)
    if -(int64Bound : Int) ≤ value ∧ value < int64Bound then some value else none
  else none

/-- The number `digits · 10 ^ exponent`. -/
structure Decimal where
  digits : Nat
  exponent : Int

/-- The optional exponent at the end of a numeral. -/
def readExponent? : List Char → Option Int
  | [] => some 0
  | c :: rest =>
    if c = 'e' ∨ c = 'E' then
      let (negative, digits) := spanSign rest
      if digits ≠ [] ∧ digits.all Char.isDigit then
        some (withSign negative (digitsValue digits))
      else none
    else none

/-- Reads an unsigned numeral with an optional fraction and exponent. A digit is needed before or
after the point. -/
def readDecimal? (cs : List Char) : Option Decimal :=
  let (whole, rest) := spanDigits cs
  let (fraction, rest) := match rest with
    | '.' :: rest => spanDigits rest
    | rest => ([], rest)
  if whole = [] ∧ fraction = [] then none
  else (readExponent? rest).map fun e =>
    ⟨digitsValue (whole ++ fraction), e - fraction.length⟩

/-- `num / den` rounded to the nearest integer, a half to the even neighbour. -/
def roundHalfEven (num den : Nat) : Nat :=
  let quotient := num / den
  let twice := 2 * (num % den)
  if twice < den ∨ (twice = den ∧ quotient % 2 = 0) then quotient else quotient + 1

/-- The largest `k` with `2 ^ k ≤ num / den`, both being positive. -/
def ratioLog2 (num den : Nat) : Int :=
  let k : Int := (num.log2 : Int) - den.log2
  let below := if 0 ≤ k then num < den * Nat.pow 2 k.toNat
    else num * Nat.pow 2 (-k).toNat < den
  if below then k - 1 else k

/-- The double precision number `m · 2 ^ e` nearest to the positive number `num / den`. -/
def nearestDouble (num den : Nat) : Nat × Int :=
  let e := max (-1074) (ratioLog2 num den - 52)
  let m := if 0 ≤ e then roundHalfEven num (den * Nat.pow 2 e.toNat)
    else roundHalfEven (num * Nat.pow 2 (-e).toNat) den
  (m, e)

/-- The double precision number nearest to a decimal, if it is an integer below `2 ^ 63`. -/
def Decimal.nearestInteger? (d : Decimal) : Option Nat :=
  let magnitude : Int := (Nat.toDigits 10 d.digits).length + d.exponent
  if d.digits = 0 ∨ magnitude < -330 then some 0
  else if 25 < magnitude then none
  else
    let (m, e) := if 0 ≤ d.exponent then nearestDouble (d.digits * Nat.pow 10 d.exponent.toNat) 1
      else nearestDouble d.digits (Nat.pow 10 (-d.exponent).toNat)
    if 0 ≤ e then
      let value := m * Nat.pow 2 e.toNat
      if value < int64Bound then some value else none
    else
      let unit := Nat.pow 2 (-e).toNat
      if m % unit = 0 then some (m / unit) else none

/-- Why a text does not stand for an integer. -/
inductive IntegerFault where
  | fractional
  | notNumber
deriving DecidableEq, Repr

def isNonFinite (cs : List Char) : Bool :=
  cs ∈ ["inf".toList, "infinity".toList, "nan".toList]

/-- Reads an integer, also one that is written with a fraction or an exponent. -/
def readInteger (cs : List Char) : Except IntegerFault Int :=
  match readInt64? cs with
  | some i => .ok i
  | none =>
    let (negative, rest) := spanSign cs
    if isNonFinite (rest.map Char.toLower) then .error .fractional
    else match readDecimal? rest with
      | none => .error .notNumber
      | some d => match d.nearestInteger? with
        | some n => .ok (withSign negative n)
        | none => .error .fractional

end Text
end FinitePlanning
