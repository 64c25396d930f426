import ToolScript.Json
import ToolScript.Value

/-!
# Values as JSON and as text

A value becomes a JSON document, and it can also be written directly as one.
JSON has no infinities and no NaN; they become null. A whole number up to 2 ^ 53 in
magnitude becomes an integer. Printed values show strings as they are and lists and
objects as compact JSON.
-/

namespace ToolScript.Value

/-- The largest magnitude up to which every integer is a double: two to the power of 53. -/
def maxExact : Nat := 9007199254740992

/-- The integer that stands for a number in JSON: whole and at most `maxExact` in
magnitude. -/
def jsonInt? (n : Float) : Option Int :=
  match Number.toInt? n with
  | some i => if i.natAbs ≤ maxExact then some i else none
  | none => none

/-- A number as JSON. -/
def jsonNumber (n : Float) : Json :=
  match jsonInt? n with
  | some i => .int i
  | none => if n.isFinite then .float n else .null

mutual

/-- The value as a JSON document. -/
def toJson : Value → Json
  | .null => .null
  | .bool b => .bool b
  | .number n => jsonNumber n
  | .string s => .string s
  | .list items => .array (toJsonItems items)
  | .object entries => .object (toJsonEntries entries)
termination_by structural value => value

/-- The items of a list as JSON. -/
def toJsonItems : List Value → List Json
  | [] => []
  | item :: rest => item.toJson :: toJsonItems rest
termination_by structural items => items

/-- The entries of an object as JSON. -/
def toJsonEntries : List (String × Value) → List (String × Json)
  | [] => []
  | (key, item) :: rest => (key, item.toJson) :: toJsonEntries rest
termination_by structural entries => entries

end

mutual

/-- The value that a JSON document describes. -/
def ofJson : Json → Value
  | .null => .null
  | .bool b => .bool b
  | .int i => .number (Float.ofInt i)
  | .float n => .number n
  | .string s => .string s
  | .array items => .list (ofJsonItems items)
  | .object entries => .object (ofJsonEntries entries)
termination_by structural json => json

/-- The values of the items of an array. -/
def ofJsonItems : List Json → List Value
  | [] => []
  | item :: rest => ofJson item :: ofJsonItems rest
termination_by structural items => items

/-- The values of the entries of an object. -/
def ofJsonEntries : List (String × Json) → List (String × Value)
  | [] => []
  | (key, item) :: rest => (key, ofJson item) :: ofJsonEntries rest
termination_by structural entries => entries

end

section Write

variable {α : Type} (writer : Json.Writer α)

mutual

/-- Writes a value as JSON without building the document. Only its numbers become documents
on their own. -/
def writeJson : Value → α
  | .null => writer.null
  | .bool b => writer.bool b
  | .number n => (jsonNumber n).write writer
  | .string s => writer.string s
  | .list items => writer.array (writeJsonItems items)
  | .object entries => writer.object (writeJsonEntries entries)
termination_by structural value => value

/-- Writes the items of a list as JSON. -/
def writeJsonItems : List Value → List α
  | [] => []
  | item :: rest => writeJson item :: writeJsonItems rest
termination_by structural items => items

/-- Writes the entries of an object as JSON. -/
def writeJsonEntries : List (String × Value) → List (String × α)
  | [] => []
  | (key, item) :: rest => (key, writeJson item) :: writeJsonEntries rest
termination_by structural entries => entries

end

end Write

/-- The compact JSON text of a value, written without building the document. -/
def jsonText (value : Value) : String :=
  value.writeJson .compact

/-- The text of a value as it is printed. -/
def text : Value → String
  | .null => "null"
  | .bool b => if b then "true" else "false"
  | .number n => Number.text n
  | .string s => s
  | value => value.toJson.compact

end ToolScript.Value
