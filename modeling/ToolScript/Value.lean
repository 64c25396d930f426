import ToolScript.Dict
import ToolScript.Number

/-!
# Values of the language

A value is null, a boolean, a number, a string, a list or an object. Equality is
deep: objects are equal when they have the same names with equal values, whatever
their order, and NaN differs from everything.
-/

namespace ToolScript

/-- A value that a script computes with. Objects keep the order of their names. -/
inductive Value where
  | null
  | bool (b : Bool)
  | number (n : Float)
  | string (s : String)
  | list (items : List Value)
  | object (entries : List (String × Value))

instance : Inhabited Value := ⟨.null⟩

/-- The types that values have and that tool parameters ask for. -/
inductive ValueType where
  | null
  | boolean
  | number
  | string
  | list
  | object
  | any
deriving DecidableEq, Repr

namespace Value

/-- The type of a value; it is never `any`. -/
def type : Value → ValueType
  | .null => .null
  | .bool _ => .boolean
  | .number _ => .number
  | .string _ => .string
  | .list _ => .list
  | .object _ => .object

/-- Whether the value is null. -/
def isNull : Value → Bool
  | .null => true
  | _ => false

/-- Whether the value is a number without a fractional part. -/
def isInteger : Value → Bool
  | .number n => (Number.toInt? n).isSome
  | _ => false

/-- The boolean that a value is. -/
def bool? : Value → Option Bool
  | .bool b => some b
  | _ => none

/-- The number that a value is. -/
def number? : Value → Option Float
  | .number n => some n
  | _ => none

/-- The string that a value is. -/
def string? : Value → Option String
  | .string s => some s
  | _ => none

/-- The items of a list value. -/
def list? : Value → Option (List Value)
  | .list items => some items
  | _ => none

/-- The entries of an object value. -/
def object? : Value → Option (Dict Value)
  | .object entries => some entries
  | _ => none

mutual

/-- Deep equality of values. -/
def eq : Value → Value → Bool
  | .null, .null => true
  | .bool a, .bool b => a == b
  | .number a, .number b => a == b
  | .string a, .string b => a == b
  | .list a, .list b => eqItems a b
  | .object a, .object b => a.length == b.length && eqEntries a b
  | _, _ => false
termination_by structural a => a

/-- Equality of lists, item by item. -/
def eqItems : List Value → List Value → Bool
  | [], [] => true
  | a :: as, b :: bs => a.eq b && eqItems as bs
  | _, _ => false
termination_by structural as => as

/-- Whether each entry has an equal partner under its name in `others`. -/
def eqEntries : List (String × Value) → Dict Value → Bool
  | [], _ => true
  | (name, a) :: rest, others =>
      (match Dict.get? others name with
        | some b => a.eq b
        | none => false) && eqEntries rest others
termination_by structural entries => entries

end

instance : BEq Value := ⟨eq⟩

end Value

namespace ValueType

/-- The name of a type in messages. -/
def name : ValueType → String
  | .null => "null"
  | .boolean => "boolean"
  | .number => "number"
  | .string => "string"
  | .list => "list"
  | .object => "object"
  | .any => "any"

/-- Whether a parameter of this type takes the value. -/
def accepts (type : ValueType) (value : Value) : Bool :=
  type = .any || type = value.type

end ValueType

end ToolScript
