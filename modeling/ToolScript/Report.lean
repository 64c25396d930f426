import ToolScript.Failure
import ToolScript.Text.Lines

/-!
# Reports

A report shows a failure to a person: its kind and message, the source line it
concerns with a caret under the place, and notes. Tabs in front of the place are
kept, so that the caret stands below it.
-/

namespace ToolScript

/-- A failure made ready to be shown. -/
structure Report where
  kind : String
  message : String
  position : Option Position
  sourceLine : Option String
  notes : List String
deriving DecidableEq, Repr

namespace Report

/-- The note on failures that come from a tool. -/
def toolNote : String :=
  "raised by the tool layer, not by the script itself"

/-- The report on a failure of the given source text. -/
def ofFailure (failure : Failure) (source : String) : Report where
  kind := failure.cause.kind
  message := failure.message
  position := failure.position
  sourceLine := failure.position.bind fun position => Text.line? source position.line
  notes := if failure.cause.isTool then [toolNote] else []

/-- Adds a note at the end. -/
def withNote (report : Report) (note : String) : Report :=
  { report with notes := report.notes ++ [note] }

/-- The blank space in front of the caret: as wide as what stands before the column,
with a tab under each tab. -/
def caretOffset (line : String) (column : Nat) : String :=
  String.ofList ((line.toList.take (column - 1)).map fun c => if c = '\t' then '\t' else ' ')

/-- The source line with its number and the caret under the column. -/
def excerpt (position : Position) (line : String) : String :=
  let gutter := toString position.line
  let pad := String.ofList (List.replicate gutter.length ' ')
  "\n" ++ pad ++ " --> " ++ position.text ++
    "\n" ++ pad ++ " |" ++
    "\n" ++ gutter ++ " | " ++ line ++
    "\n" ++ pad ++ " | " ++ caretOffset line position.column ++ "^"

/-- The whole report. -/
def text (report : Report) : String :=
  let head := report.kind ++ ": " ++ report.message
  let shown :=
    match report.position, report.sourceLine with
    | some position, some line => excerpt position line
    | _, _ => ""
  head ++ shown ++ String.join (report.notes.map fun note => "\n  note: " ++ note)

end Report

end ToolScript
