import ToolScript.Decimal

/-!
# The fewest digits that read back

The exact value of a double may have hundreds of digits. Its short form is looked
for among the decimals with one digit, then with two, and so on, until one of the
value's two neighbours on such a grid reads as the same double. If both do, the
nearer one is taken, and the writer says where an exact tie goes.
-/

namespace ToolScript.Decimal

/-- Where a value half way between two decimals goes. -/
inductive Tie where
  | up
  | toEven
deriving DecidableEq, Repr

/-- Whether the upper neighbour is preferred, when `remainder` of `unit` parts lie
above the lower neighbour `below`. -/
def Tie.prefersAbove (tie : Tie) (below remainder unit : Nat) : Bool :=
  match compare (2 * remainder) unit with
  | .lt => false
  | .gt => true
  | .eq => tie = .up || below % 2 = 1

/-- The neighbour of `exact` on the grid that drops `cut` digits which reads as `value`. -/
def neighbour? (tie : Tie) (exact : Decimal) (value : Float) (cut : Nat) : Option Decimal :=
  let unit := Nat.pow 10 cut
  let below : Decimal := ⟨exact.coefficient / unit, exact.exponent + cut⟩
  let above : Decimal := ⟨exact.coefficient / unit + 1, exact.exponent + cut⟩
  match below.toFloat == value, above.toFloat == value with
  | true, true =>
      if tie.prefersAbove below.coefficient (exact.coefficient % unit) unit then some above
      else some below
  | true, false => some below
  | false, true => some above
  | false, false => none

/-- The decimal with the fewest digits that reads as the same double as `exact`. -/
def shortest (tie : Tie) (exact : Decimal) : Decimal :=
  let value := exact.toFloat
  let size := exact.digits.length
  ((List.range size).findSome? fun n => neighbour? tie exact value (size - (n + 1))).getD exact

/-- How decimals are written: where ties go, for which places of the point the
digits are written out, and whether whole numbers end in a point and a zero. -/
structure Style where
  tie : Tie
  writtenOut : Int → Bool
  pointZero : Bool

/-- The digits without the zeros at their end. -/
def dropZeros (cs : List Char) : List Char :=
  (cs.reverse.dropWhile (· = '0')).reverse

/-- Digits with the point in its place, filled up with zeros. -/
def positional (pointZero : Bool) (digits : List Char) (point : Int) : List Char :=
  if point ≤ 0 then
    '0' :: '.' :: List.replicate point.natAbs '0' ++ digits
  else if digits.length ≤ point then
    digits ++ List.replicate (point - digits.length).toNat '0' ++
      (if pointZero then ['.', '0'] else [])
  else
    digits.take point.toNat ++ '.' :: digits.drop point.toNat

/-- Digits with the point behind the first one, and the exponent with its sign. -/
def scientific (digits : List Char) (point : Int) : List Char :=
  let exponent := point - 1
  digits.take 1 ++ (if digits.length ≤ 1 then [] else '.' :: digits.drop 1) ++
    ['e', if exponent < 0 then '-' else '+'] ++ Nat.toDigits 10 exponent.natAbs

/-- The text of the shortest decimal that reads as the same double as `exact`. -/
def Style.write (style : Style) (exact : Decimal) : List Char :=
  let short := shortest style.tie exact
  let digits := dropZeros short.digits
  if style.writtenOut short.point then positional style.pointZero digits short.point
  else scientific digits short.point

end ToolScript.Decimal
