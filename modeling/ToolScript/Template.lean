import ToolScript.Text.Blank
import ToolScript.Value.Text

/-!
# Templates

A template is text with slots in braces. A slot names a value, and blanks around the
name do not count. A doubled brace stands for one brace, and a closing brace outside a
slot stands for itself. A template is first cut into segments, and these are filled
from left to right; the text of a value is never looked at again.
-/

namespace ToolScript.Template

/-- A part of a template: a character, a slot, or a slot that is never closed. -/
inductive Segment where
  | char (c : Char)
  | slot (raw : List Char)
  | unclosed (raw : List Char)
deriving DecidableEq, Repr

mutual

/-- The segments of a template. -/
def segments : List Char → List Segment
  | [] => []
  | '{' :: '{' :: rest => .char '{' :: segments rest
  | '}' :: '}' :: rest => .char '}' :: segments rest
  | '{' :: rest => segmentsInSlot [] rest
  | c :: rest => .char c :: segments rest
termination_by structural cs => cs

/-- The segments from inside a slot on, of which `raw` has been read. -/
def segmentsInSlot (raw : List Char) : List Char → List Segment
  | [] => [.unclosed raw]
  | c :: rest => if c = '}' then .slot raw :: segments rest else segmentsInSlot (raw ++ [c]) rest
termination_by structural cs => cs

end

/-- Why a template cannot be filled. -/
inductive Fault where
  | unclosed (raw : List Char)
  | emptySlot
  | noValue (name : String)
deriving DecidableEq, Repr

/-- The fault in words. -/
def Fault.message : Fault → String
  | .unclosed raw =>
      "FORMAT template has an unclosed placeholder '\x7b" ++ String.ofList raw ++ "'"
  | .emptySlot => "FORMAT template has an empty placeholder '\x7b\x7d'"
  | .noValue name => "FORMAT placeholder '" ++ name ++ "' has no matching value"

/-- The text of the value that a slot names. -/
def slotText (values : Dict Value) (raw : List Char) : Except Fault String :=
  if Text.trim raw = [] then .error .emptySlot
  else
    let name := String.ofList (Text.trim raw)
    match Dict.get? values name with
    | some value => .ok value.text
    | none => .error (.noValue name)

/-- The text of one segment. -/
def Segment.text (values : Dict Value) : Segment → Except Fault String
  | .char c => .ok c.toString
  | .slot raw => slotText values raw
  | .unclosed raw => .error (.unclosed raw)

/-- The texts of the segments one after the other, or the first fault. -/
def fillSegments (values : Dict Value) : List Segment → Except Fault String
  | [] => .ok ""
  | segment :: rest =>
      match segment.text values with
      | .error fault => .error fault
      | .ok text =>
          match fillSegments values rest with
          | .error fault => .error fault
          | .ok others => .ok (text ++ others)

/-- Fills the slots of a template with the values of the given names. -/
def fill (template : String) (values : Dict Value) : Except Fault String :=
  fillSegments values (segments template.toList)

end ToolScript.Template
