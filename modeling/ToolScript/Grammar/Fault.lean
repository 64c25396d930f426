import ToolScript.Failure
import ToolScript.Token

/-!
# What the grammar expects

A grammar fault is an expectation together with the token that was found instead.
The wording of every expectation stands here.
-/

namespace ToolScript

/-- The blocks of statements inside a statement. -/
inductive Block where
  | yes
  | no
  | body
deriving DecidableEq, Repr

/-- The words that end a block. -/
def Block.closers : Block → List Keyword
  | .yes => [.kwElse, .kwEnd]
  | .no => [.kwEnd]
  | .body => [.kwEnd]

/-- The word that opens a block. -/
def Block.name : Block → String
  | .yes => "IF"
  | .no => "ELSE"
  | .body => "FOR"

namespace Grammar

/-- Trees and blocks are nested at most this deep. -/
def maxNesting : Nat := 128

/-- What should have stood at a place. -/
inductive Expectation where
  | keyword (word : Keyword)
  | boundName
  | assign
  | toolName
  | argumentsOpen
  | argumentName
  | argumentColon
  | argumentsClose
  | loopName
  | blockEnd (block : Block)
  | indexClose
  | memberName
  | numeral
  | nowOpen
  | nowClose
  | printOpen
  | callClose
  | groupClose
  | listClose
  | propertyName
  | propertyColon
  | objectClose
  | expression
  | moreInput
  | endOfExpression
  | lessNesting
deriving DecidableEq, Repr

/-- The message for a token that does not meet an expectation. -/
def Expectation.message : Expectation → String
  | .keyword word => "Expected " ++ word.spelling
  | .boundName => "Expected variable name after LET"
  | .assign => "Expected '=' after variable name"
  | .toolName => "Expected tool name after CALL"
  | .argumentsOpen => "Expected '\x7b' to start tool arguments"
  | .argumentName => "Expected argument name"
  | .argumentColon => "Expected ':' after argument name"
  | .argumentsClose => "Expected '\x7d' to close tool arguments"
  | .loopName => "Expected loop variable after FOR"
  | .blockEnd block =>
      "Expected " ++ String.intercalate " or " (block.closers.map Keyword.spelling) ++
        " to close " ++ block.name
  | .indexClose => "Expected ']' after index"
  | .memberName => "Expected property name after '.'"
  | .numeral => "Invalid number literal"
  | .nowOpen => "Expected '(' after NOW"
  | .nowClose => "NOW takes no arguments, expected ')'"
  | .printOpen => "Expected '(' after PRINT"
  | .callClose => "Expected ')' after arguments"
  | .groupClose => "Expected ')' after expression"
  | .listClose => "Expected ']' after list elements"
  | .propertyName => "Expected property name (identifier or string)"
  | .propertyColon => "Expected ':' after property name"
  | .objectClose => "Expected '\x7d' after object properties"
  | .expression => "Expected an expression"
  | .moreInput => "Unexpected end of input, expected an expression"
  | .endOfExpression => "Expected end of expression"
  | .lessNesting =>
      "Expression nested too deeply (maximum depth is " ++ toString maxNesting ++ ")"

/-- An expectation and the token that was found instead. -/
structure Fault where
  expected : Expectation
  found : Token
deriving DecidableEq, Repr

/-- The failure that a grammar fault amounts to. -/
def Fault.failure (fault : Fault) : Failure :=
  (Cause.grammar fault.expected.message fault.found.describe).located fault.found.position

end Grammar

end ToolScript
