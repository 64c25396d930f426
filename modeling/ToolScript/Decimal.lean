/-!
# Decimals and the doubles they read as

A decimal is a natural number times a power of ten. It reads as the double nearest
to it. The written form has digits with an optional point among them and an
optional exponent.
-/

namespace ToolScript

/-- The number `coefficient * 10 ^ exponent`. -/
structure Decimal where
  coefficient : Nat
  exponent : Int
deriving DecidableEq, Repr

namespace Decimal

/-- The double above all finite ones. -/
def infinity : Float :=
  Float.ofBits 0x7ff0000000000000

/-- The double nearest to a decimal. Beyond the exponents that doubles can have the
answer is infinity or zero, and no large power of ten is computed. -/
def toFloat (d : Decimal) : Float :=
  match d.exponent with
  | .ofNat e =>
      if e ≤ 400 then Float.ofScientific d.coefficient false e
      else if d.coefficient = 0 then 0 else infinity
  | .negSucc e =>
      if e ≤ 400 + d.coefficient.log2 then Float.ofScientific d.coefficient true (e + 1) else 0

/-- The digits of the coefficient. -/
def digits (d : Decimal) : List Char :=
  Nat.toDigits 10 d.coefficient

/-- The number of digits in front of the decimal point; zero and negative numbers
count the zeros right behind the point. -/
def point (d : Decimal) : Int :=
  d.digits.length + d.exponent

/-- The natural number that a list of digits spells. -/
def natOfDigits (cs : List Char) : Nat :=
  Nat.ofDigitChars 10 cs 0

/-- Reads a sequence of digits that is not empty. -/
def nat? (cs : List Char) : Option Nat :=
  if cs ≠ [] ∧ cs.all Char.isDigit then some (natOfDigits cs) else none

/-- Reads what follows the digits: nothing, or an exponent with an optional sign. -/
def exponent? : List Char → Option Int
  | [] => some 0
  | mark :: cs =>
      if mark = 'e' || mark = 'E' then
        match cs with
        | '-' :: cs => (nat? cs).map fun e => -(e : Int)
        | '+' :: cs => (nat? cs).map Int.ofNat
        | cs => (nat? cs).map Int.ofNat
      else none

/-- The digits behind a leading point, and what follows them. -/
def fraction : List Char → List Char × List Char
  | '.' :: cs => (cs.takeWhile Char.isDigit, cs.dropWhile Char.isDigit)
  | cs => ([], cs)

/-- Reads a decimal without a sign. There is a digit before or behind the point. -/
def ofChars? (cs : List Char) : Option Decimal :=
  let whole := cs.takeWhile Char.isDigit
  let (part, rest) := fraction (cs.dropWhile Char.isDigit)
  if whole = [] ∧ part = [] then none
  else (exponent? rest).map fun e => ⟨natOfDigits (whole ++ part), e - part.length⟩

end Decimal

end ToolScript
