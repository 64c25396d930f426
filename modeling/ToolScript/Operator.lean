import ToolScript.Failure
import ToolScript.Script

/-!
# What operators and accessors compute

Equality compares any two values. `AND` and `OR` take booleans, and the other operators
take numbers; division and remainder refuse a zero divisor.
-/

namespace ToolScript

/-- The cause for operands of the wrong type. -/
def BinaryOp.operandCause (op : BinaryOp) (expected : ValueType) (left right : Value) : Cause :=
  .type ("Operator '" ++ op.symbol ++ "' requires " ++ expected.name ++ " operands, found " ++
    left.type.name ++ " and " ++ right.type.name)

/-- The cause for an operand of the wrong type. -/
def UnaryOp.operandCause (op : UnaryOp) (operand : Value) : Cause :=
  match op with
  | .not =>
      .type ("Operator 'NOT' requires a boolean operand, found " ++ operand.type.name)
  | _ =>
      .type ("Unary '" ++ op.symbol ++ "' requires a number operand, found " ++ operand.type.name)

/-- Gives two booleans to `f`. -/
def BinaryOp.onBools (op : BinaryOp) (f : Bool → Bool → Bool) (left right : Value) :
    Except Cause Value :=
  match left, right with
  | .bool a, .bool b => .ok (.bool (f a b))
  | _, _ => .error (op.operandCause .boolean left right)

/-- Gives two numbers to `f`. -/
def BinaryOp.onNumbers (op : BinaryOp) (f : Float → Float → Except Cause Value)
    (left right : Value) : Except Cause Value :=
  match left, right with
  | .number a, .number b => f a b
  | _, _ => .error (op.operandCause .number left right)

/-- Divides by `f` unless the divisor is zero. -/
def divided (f : Float → Float → Float) (a b : Float) : Except Cause Value :=
  if b == 0 then .error .divisionByZero else .ok (.number (f a b))

/-- The value of an operator between two values. -/
def BinaryOp.apply (op : BinaryOp) (left right : Value) : Except Cause Value :=
  match op with
  | .equal => .ok (.bool (left == right))
  | .notEqual => .ok (.bool (!(left == right)))
  | .and => op.onBools (· && ·) left right
  | .or => op.onBools (· || ·) left right
  | .less => op.onNumbers (fun a b => .ok (.bool (a < b))) left right
  | .lessEqual => op.onNumbers (fun a b => .ok (.bool (a ≤ b))) left right
  | .greater => op.onNumbers (fun a b => .ok (.bool (a > b))) left right
  | .greaterEqual => op.onNumbers (fun a b => .ok (.bool (a ≥ b))) left right
  | .add => op.onNumbers (fun a b => .ok (.number (a + b))) left right
  | .sub => op.onNumbers (fun a b => .ok (.number (a - b))) left right
  | .mul => op.onNumbers (fun a b => .ok (.number (a * b))) left right
  | .div => op.onNumbers (divided (· / ·)) left right
  | .mod => op.onNumbers (divided Number.remainder) left right

/-- The value of an operator before a value. -/
def UnaryOp.apply (op : UnaryOp) (operand : Value) : Except Cause Value :=
  match op, operand with
  | .not, .bool b => .ok (.bool (!b))
  | .negate, .number n => .ok (.number (-n))
  | .plus, .number n => .ok (.number n)
  | _, _ => .error (op.operandCause operand)

/-- The integer as far as 64 bits reach: what lies beyond is cut to the nearest end. -/
def clamp64 (i : Int) : Int :=
  if i < -9223372036854775808 then -9223372036854775808
  else if 9223372036854775807 < i then 9223372036854775807
  else i

/-- The item of a list at a place, counted from zero. -/
def itemAt (items : List Value) (place : Value) : Except Cause Value :=
  match place.number?.bind Number.toInt? with
  | none => .error (.type "List index must be an integer")
  | some i =>
      if i < 0 then .error (.indexOutOfBounds (clamp64 i) items.length)
      else
        match items[i.toNat]? with
        | some item => .ok item
        | none => .error (.indexOutOfBounds (clamp64 i) items.length)

/-- The entry of an object under a name. -/
def entryAt (entries : Dict Value) (name : String) : Except Cause Value :=
  match Dict.get? entries name with
  | some value => .ok value
  | none => .error (.memberAccess ("Property '" ++ name ++ "' does not exist"))

end ToolScript
