import ToolScript.Number

/-!
# JSON documents and their compact text

Objects keep the order of their entries. Integers and other numbers are told apart,
because a whole number that is written as a fraction keeps its point. Documents can be
written in other ways than as compact text.
-/

namespace ToolScript

/-- A JSON document. -/
inductive Json where
  | null
  | bool (b : Bool)
  | int (i : Int)
  | float (n : Float)
  | string (s : String)
  | array (items : List Json)
  | object (entries : List (String × Json))

instance : Inhabited Json := ⟨.null⟩

namespace Json

/-- In JSON a number from 0.00001 up to, not including, 10 ^ 16 is written out, a
whole one ends in `.0`, and a tie goes to the even neighbour. -/
def numberStyle : Decimal.Style :=
  ⟨.toEven, fun point => -5 < point && point ≤ 16, true⟩

/-- The text of a number that is not an integer. -/
def floatText (n : Float) : String :=
  String.ofList (Number.written numberStyle n)

/-- How one character is written inside a JSON string. -/
def spell (c : Char) : List Char :=
  if c = '"' then ['\\', '"']
  else if c = '\\' then ['\\', '\\']
  else if c = '\x08' then ['\\', 'b']
  else if c = '\x0c' then ['\\', 'f']
  else if c = '\n' then ['\\', 'n']
  else if c = '\r' then ['\\', 'r']
  else if c = '\t' then ['\\', 't']
  else if c.toNat < 0x20 then
    ['\\', 'u', '0', '0', Nat.digitChar (c.toNat / 16), Nat.digitChar (c.toNat % 16)]
  else [c]

/-- A string between quotation marks. -/
def stringText (s : String) : String :=
  String.ofList ('"' :: s.toList.flatMap spell ++ ['"'])

/-- The text of an array, from the texts of its items. -/
def arrayText (items : List String) : String :=
  "[" ++ String.intercalate "," items ++ "]"

/-- The text of an object, from the texts of its entries. -/
def objectText (entries : List String) : String :=
  "\x7b" ++ String.intercalate "," entries ++ "\x7d"

/-- A way to write documents: what becomes of each kind of document, given what has become of
the parts. -/
structure Writer (α : Type) where
  null : α
  bool : Bool → α
  int : Int → α
  float : Float → α
  string : String → α
  array : List α → α
  object : List (String × α) → α

/-- Writes text without blanks. -/
def Writer.compact : Writer String where
  null := "null"
  bool b := if b then "true" else "false"
  int i := toString i
  float := floatText
  string := stringText
  array := arrayText
  object entries := objectText (entries.map fun (key, text) => stringText key ++ ":" ++ text)

section Write

variable {α : Type} (writer : Writer α)

mutual

/-- Writes a document. -/
def write : Json → α
  | .null => writer.null
  | .bool b => writer.bool b
  | .int i => writer.int i
  | .float n => writer.float n
  | .string s => writer.string s
  | .array items => writer.array (writeItems items)
  | .object entries => writer.object (writeEntries entries)
termination_by structural json => json

/-- Writes the items of an array. -/
def writeItems : List Json → List α
  | [] => []
  | item :: rest => write item :: writeItems rest
termination_by structural items => items

/-- Writes the entries of an object. -/
def writeEntries : List (String × Json) → List (String × α)
  | [] => []
  | (key, item) :: rest => (key, write item) :: writeEntries rest
termination_by structural entries => entries

end

end Write

/-- The text of a document, without blanks. -/
def compact (json : Json) : String :=
  json.write .compact

end Json

end ToolScript
