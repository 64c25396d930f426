import ToolScript.Position

/-!
# Tokens

A token has a kind, a lexeme and a position. The lexeme is the text of the token in
the source, except that a string token has the value of its literal.
-/

namespace ToolScript

/-- The reserved words. -/
inductive Keyword where
  | kwLet
  | kwCall
  | kwIf
  | kwThen
  | kwElse
  | kwFor
  | kwIn
  | kwDo
  | kwEnd
  | kwAnd
  | kwOr
  | kwNot
  | kwTrue
  | kwFalse
  | kwNull
  | kwNow
  | kwPrint
deriving DecidableEq, Repr

/-- Operators and punctuation. -/
inductive Symbol where
  | assign
  | equal
  | notEqual
  | greater
  | greaterEqual
  | less
  | lessEqual
  | plus
  | minus
  | star
  | slash
  | percent
  | leftBrace
  | rightBrace
  | leftBracket
  | rightBracket
  | leftParen
  | rightParen
  | colon
  | comma
  | dot
deriving DecidableEq, Repr

namespace Keyword

/-- The word in the source text. -/
def spelling : Keyword → String
  | .kwLet => "LET"
  | .kwCall => "CALL"
  | .kwIf => "IF"
  | .kwThen => "THEN"
  | .kwElse => "ELSE"
  | .kwFor => "FOR"
  | .kwIn => "IN"
  | .kwDo => "DO"
  | .kwEnd => "END"
  | .kwAnd => "AND"
  | .kwOr => "OR"
  | .kwNot => "NOT"
  | .kwTrue => "TRUE"
  | .kwFalse => "FALSE"
  | .kwNull => "NULL"
  | .kwNow => "NOW"
  | .kwPrint => "PRINT"

/-- All reserved words. -/
def all : List Keyword :=
  [.kwLet, .kwCall, .kwIf, .kwThen, .kwElse, .kwFor, .kwIn, .kwDo, .kwEnd, .kwAnd, .kwOr,
    .kwNot, .kwTrue, .kwFalse, .kwNull, .kwNow, .kwPrint]

/-- The reserved word with the given spelling. Case matters. -/
def ofSpelling? (word : String) : Option Keyword :=
  all.find? fun keyword => keyword.spelling = word

end Keyword

namespace Symbol

/-- The symbol in the source text. -/
def spelling : Symbol → String
  | .assign => "="
  | .equal => "=="
  | .notEqual => "!="
  | .greater => ">"
  | .greaterEqual => ">="
  | .less => "<"
  | .lessEqual => "<="
  | .plus => "+"
  | .minus => "-"
  | .star => "*"
  | .slash => "/"
  | .percent => "%"
  | .leftBrace => "\x7b"
  | .rightBrace => "\x7d"
  | .leftBracket => "["
  | .rightBracket => "]"
  | .leftParen => "("
  | .rightParen => ")"
  | .colon => ":"
  | .comma => ","
  | .dot => "."

/-- All symbols. -/
def all : List Symbol :=
  [.assign, .equal, .notEqual, .greater, .greaterEqual, .less, .lessEqual, .plus, .minus,
    .star, .slash, .percent, .leftBrace, .rightBrace, .leftBracket, .rightBracket, .leftParen,
    .rightParen, .colon, .comma, .dot]

/-- The symbol of one character. -/
def ofChar? (c : Char) : Option Symbol :=
  all.find? fun symbol => symbol.spelling.toList = [c]

/-- The symbol of a character followed by an equals sign. -/
def ofCharEqual? (c : Char) : Option Symbol :=
  all.find? fun symbol => symbol.spelling.toList = [c, '=']

end Symbol

namespace Token

/-- The kinds of tokens. -/
inductive Kind where
  | identifier
  | number
  | string
  | keyword (word : Keyword)
  | symbol (sign : Symbol)
  | endOfInput
deriving DecidableEq, Repr

/-- The name of a kind. -/
def Kind.label : Kind → String
  | .identifier => "identifier"
  | .number => "number"
  | .string => "string"
  | .keyword word => word.spelling
  | .symbol sign => "'" ++ sign.spelling ++ "'"
  | .endOfInput => "end of input"

end Token

/-- A token of the source text. -/
structure Token where
  kind : Token.Kind
  lexeme : String
  position : Position
deriving DecidableEq, Repr

namespace Token

/-- The token behind the last one of a text that ends at `position`. -/
def endAt (position : Position) : Token :=
  ⟨.endOfInput, "", position⟩

/-- How a token is named in messages. -/
def describe (token : Token) : String :=
  match token.kind with
  | .endOfInput => "end of input"
  | .string => "string \"" ++ token.lexeme ++ "\""
  | _ => "'" ++ token.lexeme ++ "'"

end Token

end ToolScript
