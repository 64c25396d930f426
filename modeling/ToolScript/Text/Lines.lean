/-!
# Lines of a source text

A line ends at a line break, and one carriage return right before the break
belongs to the break. A last line without a break counts; the empty text behind a
final break does not.
-/

namespace ToolScript.Text

/-- The lines of a text, without their breaks. -/
def lines : List Char → List (List Char)
  | [] => []
  | '\n' :: rest => [] :: lines rest
  | '\r' :: '\n' :: rest => [] :: lines rest
  | c :: rest =>
      match lines rest with
      | [] => [[c]]
      | line :: others => (c :: line) :: others

/-- The line with the given number, counted from one; number zero is read as one. -/
def line? (source : String) (number : Nat) : Option String :=
  (lines source.toList)[number - 1]?.map String.ofList

end ToolScript.Text
