import ToolScript.Decimal.Shortest

/-!
# Numbers of the language

Numbers are doubles. A finite double is a sign and a natural number times a power
of two; integrality, remainders and exact decimals are computed on that form.
-/

namespace ToolScript.Number

/-- A finite double taken apart: `mantissa * 2 ^ exponent` with a sign. -/
structure Dyadic where
  negative : Bool
  mantissa : Nat
  exponent : Int
deriving DecidableEq, Repr

/-- The number of fractions that a double can have: two to the power of 52. -/
def fractions : Nat := 0x10000000000000

/-- Takes a double apart; infinities and NaN have no such form. The lowest 52 bits are
the fraction, the next eleven the exponent, and the highest one is the sign. -/
def toDyadic? (n : Float) : Option Dyadic :=
  let bits := n.toBits.toNat
  let fraction := bits % fractions
  let field := bits / fractions % 2048
  let negative := decide (bits / fractions / 2048 = 1)
  if field = 2047 then none
  else if field = 0 then some ⟨negative, fraction, -1074⟩
  else some ⟨negative, fractions + fraction, (field : Int) - 1075⟩

namespace Dyadic

/-- The exact decimal value of the magnitude. -/
def toDecimal (d : Dyadic) : Decimal :=
  match d.exponent with
  | .ofNat k => ⟨d.mantissa <<< k, 0⟩
  | .negSucc k => ⟨d.mantissa * Nat.pow 5 (k + 1), .negSucc k⟩

/-- The double nearest to the value. -/
def toFloat (d : Dyadic) : Float :=
  if d.negative then -d.toDecimal.toFloat else d.toDecimal.toFloat

/-- The magnitude as a natural number, if it is one. -/
def toNat? (d : Dyadic) : Option Nat :=
  match d.exponent with
  | .ofNat k => some (d.mantissa <<< k)
  | .negSucc k =>
      let whole := d.mantissa >>> (k + 1)
      if whole <<< (k + 1) = d.mantissa then some whole else none

/-- The mantissa for a smaller exponent. -/
def scaled (d : Dyadic) (exponent : Int) : Nat :=
  d.mantissa <<< (d.exponent - exponent).toNat

/-- What is left of `a` after taking away `b` as often as it fits, with the sign of
`a`. The result is exact. -/
def remainder (a b : Dyadic) : Dyadic :=
  let exponent := min a.exponent b.exponent
  ⟨a.negative, a.scaled exponent % b.scaled exponent, exponent⟩

end Dyadic

/-- The integer that a number is, if it has no fractional part. -/
def toInt? (n : Float) : Option Int := do
  let d ← toDyadic? n
  let magnitude ← d.toNat?
  pure (if d.negative then -(magnitude : Int) else magnitude)

/-- The quiet NaN. -/
def nan : Float :=
  Float.ofBits 0x7ff8000000000000

/-- The remainder of a division that goes toward zero. It is NaN for a zero divisor
and for an infinite dividend, and an infinite divisor leaves the dividend as it is. -/
def remainder (a b : Float) : Float :=
  match toDyadic? a, toDyadic? b with
  | some x, some y => if y.mantissa = 0 then nan else (x.remainder y).toFloat
  | some _, none => if b.isNaN then nan else a
  | none, _ => nan

/-- The text of a finite number that is not zero. -/
def written (style : Decimal.Style) (n : Float) : List Char :=
  match toDyadic? n with
  | none => []
  | some d => (if d.negative then ['-'] else []) ++ style.write d.toDecimal

/-- In scripts every number is written out in full, with a point only where digits
follow it, and a tie goes up. -/
def scriptStyle : Decimal.Style :=
  ⟨.up, fun _ => true, false⟩

/-- The text of a number in scripts and in printed output. Zero has no sign. -/
def text (n : Float) : String :=
  if n.isNaN then "NaN"
  else if n.isInf then (if n > 0 then "Infinity" else "-Infinity")
  else if n == 0 then "0"
  else String.ofList (written scriptStyle n)

/-- Reads a number without a sign: a decimal, or one of the words `inf`, `infinity`
and `nan` in any case. -/
def unsigned? (cs : List Char) : Option Float :=
  let word := String.ofList (cs.map Char.toLower)
  if word = "inf" ∨ word = "infinity" then some Decimal.infinity
  else if word = "nan" then some nan
  else (Decimal.ofChars? cs).map Decimal.toFloat

/-- Reads a number with an optional sign. -/
def ofText? (s : String) : Option Float :=
  match s.toList with
  | '-' :: cs => (unsigned? cs).map fun n => -n
  | '+' :: cs => unsigned? cs
  | cs => unsigned? cs

end ToolScript.Number
