import ToolScript.Script
import ToolScript.Text.Quoted
import ToolScript.Value.Text

/-!
# Scripts as source text

Operators and tool calls are always written in parentheses, one statement to a line,
blocks indented by four blanks. Statements have nothing between them but a line
break, so an expression statement that begins like the continuation of an expression
is put in parentheses, and so is the end of a statement when the next one begins with
a parenthesis.
-/

namespace ToolScript

/-- The text between braces. -/
def braced (text : String) : String :=
  "\x7b" ++ text ++ "\x7d"

/-- The text between parentheses. -/
def parenthesized (text : String) : String :=
  "(" ++ text ++ ")"

/-- The texts with a comma and a blank between them. -/
def commaSeparated (texts : List String) : String :=
  String.intercalate ", " texts

mutual

/-- A value as the source text of a literal. -/
def Value.literalText : Value → String
  | .null => "NULL"
  | .bool b => if b then "TRUE" else "FALSE"
  | .number n => Number.text n
  | .string s => Text.Quoted.write s
  | .list items => "[" ++ commaSeparated (literalTextItems items) ++ "]"
  | .object entries => braced (commaSeparated (literalTextEntries entries))
termination_by structural value => value

/-- The items of a list as source texts. -/
def Value.literalTextItems : List Value → List String
  | [] => []
  | item :: rest => item.literalText :: literalTextItems rest
termination_by structural items => items

/-- The entries of an object as source texts. -/
def Value.literalTextEntries : List (String × Value) → List String
  | [] => []
  | (key, item) :: rest =>
      (Text.Quoted.write key ++ ": " ++ item.literalText) :: literalTextEntries rest
termination_by structural entries => entries

end

/-- The block of named arguments of a tool call, from the texts of the arguments. -/
def argumentBlock (args : List String) : String :=
  if args.isEmpty then braced "" else braced (" " ++ commaSeparated args ++ " ")

namespace Expr

mutual

/-- An expression as source text. -/
@[simp] def text : Expr → String
  | .literal _ value => value.literalText
  | .ref _ name => name
  | .binary _ op left right =>
      parenthesized (left.text ++ " " ++ op.symbol ++ " " ++ right.text)
  | .unary _ .not operand => parenthesized ("NOT " ++ operand.text)
  | .unary _ op operand => parenthesized (op.symbol ++ operand.text)
  | .apply _ name args => name ++ parenthesized (commaSeparated (textItems args))
  | .tool _ name args =>
      parenthesized ("CALL " ++ name ++ " " ++ argumentBlock (textEntries id args))
  | .list _ items => "[" ++ commaSeparated (textItems items) ++ "]"
  | .object _ entries => braced (commaSeparated (textEntries Text.Quoted.write entries))
  | .index _ subject place => subject.text ++ "[" ++ place.text ++ "]"
  | .member _ subject property => subject.text ++ "." ++ property
termination_by structural e => e

/-- Expressions as source texts. -/
@[simp] def textItems : List Expr → List String
  | [] => []
  | e :: rest => e.text :: textItems rest
termination_by structural items => items

/-- Named expressions as source texts, with the names written by `key`. -/
@[simp] def textEntries (key : String → String) : List (String × Expr) → List String
  | [] => []
  | (name, e) :: rest => (key name ++ ": " ++ e.text) :: textEntries key rest
termination_by structural entries => entries

end

/-- An expression as a statement: put in parentheses if it would continue the
statement before it. -/
def statementText (e : Expr) : String :=
  match e.text.toList with
  | '[' :: _ | '-' :: _ | '+' :: _ => parenthesized e.text
  | _ => e.text

end Expr

namespace Stmt

/-- Whether the text of a statement begins with a parenthesis. -/
def opensWithParen : Stmt → Bool
  | .expr _ e => e.statementText.toList.head? == some '('
  | _ => false

/-- The end of a statement. With `guard` set a parenthesis follows, and the text is put
in parentheses unless it ends with one. -/
def guarded (guard : Bool) (text : String) : String :=
  if guard && text.toList.getLast? != some ')' then parenthesized text else text

/-- Whether the first of the statements that follow begins with a parenthesis. -/
def needsGuard : List Stmt → Bool
  | next :: _ => next.opensWithParen
  | [] => false

/-- The blanks before a statement inside `depth` blocks. -/
def indentation (depth : Nat) : String :=
  String.ofList (List.replicate (4 * depth) ' ')

mutual

/-- A statement as source text, inside `depth` blocks. -/
def textAt (depth : Nat) (guard : Bool) : Stmt → String
  | .bind _ name value =>
      indentation depth ++ "LET " ++ name ++ " = " ++ guarded guard value.text ++ "\n"
  | .call _ tool args =>
      indentation depth ++ "CALL " ++ tool ++ " " ++
        argumentBlock (Expr.textEntries id args) ++ "\n"
  | .branch _ condition yes none =>
      indentation depth ++ "IF " ++ condition.text ++ " THEN\n" ++
        blockText (depth + 1) yes ++ indentation depth ++ "END\n"
  | .branch _ condition yes (some no) =>
      indentation depth ++ "IF " ++ condition.text ++ " THEN\n" ++
        blockText (depth + 1) yes ++ indentation depth ++ "ELSE\n" ++
        blockText (depth + 1) no ++ indentation depth ++ "END\n"
  | .each _ name items body =>
      indentation depth ++ "FOR " ++ name ++ " IN " ++ items.text ++ " DO\n" ++
        blockText (depth + 1) body ++ indentation depth ++ "END\n"
  | .expr _ e => indentation depth ++ guarded guard e.statementText ++ "\n"
termination_by structural stmt => stmt

/-- Statements as source text, inside `depth` blocks. -/
def blockText (depth : Nat) : List Stmt → String
  | [] => ""
  | stmt :: rest => stmt.textAt depth (needsGuard rest) ++ blockText depth rest
termination_by structural stmts => stmts

end

/-- A statement on its own as source text. -/
def text (stmt : Stmt) : String :=
  stmt.textAt 0 false

end Stmt

/-- A script as source text. -/
def Script.text (script : Script) : String :=
  Stmt.blockText 0 script.statements

end ToolScript
