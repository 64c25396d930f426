import ToolScript.Dict
import ToolScript.Grammar.Reader
import ToolScript.Script

/-!
# The grammar of expressions

Binary operators have six levels, each left-associative: `OR` binds loosest, then
`AND`, equality, comparison, sums, products. Operators before an operand bind tighter,
and indices and members tighter still.

How deep a tree may grow is counted as room. An expression inside another one, a group
in parentheses and the operand of an operator each take one unit of room before they are
read. Chains of operators, indices and members grow without such a step, so there the
height of each new tree is compared with the room.
-/

namespace ToolScript

/-- The operator that a token stands for between two operands. -/
def BinaryOp.ofKind? : Token.Kind → Option BinaryOp
  | .symbol .plus => some .add
  | .symbol .minus => some .sub
  | .symbol .star => some .mul
  | .symbol .slash => some .div
  | .symbol .percent => some .mod
  | .symbol .equal => some .equal
  | .symbol .notEqual => some .notEqual
  | .symbol .less => some .less
  | .symbol .lessEqual => some .lessEqual
  | .symbol .greater => some .greater
  | .symbol .greaterEqual => some .greaterEqual
  | .keyword .kwAnd => some .and
  | .keyword .kwOr => some .or
  | _ => none

/-- The level of an operator; a higher one binds less tightly. -/
def BinaryOp.level : BinaryOp → Nat
  | .mul | .div | .mod => 1
  | .add | .sub => 2
  | .less | .lessEqual | .greater | .greaterEqual => 3
  | .equal | .notEqual => 4
  | .and => 5
  | .or => 6

/-- The operator that a token stands for before an operand. -/
def UnaryOp.ofKind? : Token.Kind → Option UnaryOp
  | .keyword .kwNot => some .not
  | .symbol .minus => some .negate
  | .symbol .plus => some .plus
  | _ => none

namespace Grammar

open Reader

/-- Says at the next token that there is no room for what comes. -/
def tooDeep {α : Type} : Reader α :=
  fail .lessNesting

/-- Lets a tree pass that fits into the room, and otherwise blames the last token taken. -/
def bounded (room : Nat) (e : Expr) : Reader Expr := do
  if e.height ≤ room then pure e else blame .lessNesting (← get).last

/-- The operator of the given level that the next token stands for. -/
def operator? (level : Nat) : Reader (Option BinaryOp) := do
  pure ((BinaryOp.ofKind? (← peekKind)).filter fun op => op.level = level)

/-- Reads an operator of one level and the operand behind it, if such an operator follows. -/
def chainRound (room level : Nat) (operand : Reader Expr) (left : Expr) :
    Reader (Expr × Bool) := do
  match ← operator? level with
  | none => pure (left, false)
  | some op =>
      let token ← advance
      let right ← operand
      let e ← bounded room (.binary token.position op left right)
      pure (e, true)

/-- Reads operands with operators of one level between them, grouped to the left. -/
def chain (room level : Nat) (operand : Reader Expr) : Reader Expr := do
  let first ← operand
  loop (chainRound room level operand) first

/-- Reads an expression with operators up to the given level. -/
def chains (room : Nat) (operand : Reader Expr) : Nat → Reader Expr
  | 0 => operand
  | level + 1 => chain room (level + 1) (chains room operand level)

/-- The level of the operator that binds loosest. -/
def loosest : Nat := 6

/-- Reads one named argument of a tool and puts it to those already read. -/
def argument (expression : Reader Expr) (args : Dict Expr) : Reader (Dict Expr) := do
  let name ← expectName .argumentName
  let _ ← expectSymbol .colon .argumentColon
  let value ← expression
  pure (Dict.insert args name value)

/-- Reads the name of a tool and its arguments in braces. -/
def invocation (expression : Reader Expr) : Reader (String × Dict Expr) := do
  let tool ← expectName .toolName
  let _ ← expectSymbol .leftBrace .argumentsOpen
  let args ← separated .rightBrace false (argument expression) []
  let _ ← expectSymbol .rightBrace .argumentsClose
  pure (tool, args)

/-- Reads one expression and puts it behind those already read. -/
def item (expression : Reader Expr) (items : List Expr) : Reader (List Expr) := do
  let e ← expression
  pure (items ++ [e])

/-- Reads the arguments of a function behind the opening parenthesis. -/
def callArguments (expression : Reader Expr) : Reader (List Expr) := do
  let args ← separated .rightParen false (item expression) []
  let _ ← expectSymbol .rightParen .callClose
  pure args

/-- Reads the name of a property: an identifier or a string. -/
def propertyName : Reader String := do
  match ← peekKind with
  | .identifier | .string =>
      let token ← advance
      pure token.lexeme
  | _ => fail .propertyName

/-- Reads one property of an object and puts it to those already read. -/
def property (expression : Reader Expr) (entries : Dict Expr) : Reader (Dict Expr) := do
  let name ← propertyName
  let _ ← expectSymbol .colon .propertyColon
  let value ← expression
  pure (Dict.insert entries name value)

/-- Reads what follows the first token of an expression without operators, indices and
members. -/
def primaryFrom (expression : Reader Expr) (token : Token) : Reader Expr :=
  match token.kind with
  | .keyword .kwTrue => pure (.literal token.position (.bool true))
  | .keyword .kwFalse => pure (.literal token.position (.bool false))
  | .keyword .kwNull => pure (.literal token.position .null)
  | .number =>
      match Number.ofText? token.lexeme with
      | some n => pure (.literal token.position (.number n))
      | none => blame .numeral token
  | .string => pure (.literal token.position (.string token.lexeme))
  | .keyword .kwNow => do
      let _ ← expectSymbol .leftParen .nowOpen
      let _ ← expectSymbol .rightParen .nowClose
      pure (.apply token.position Keyword.kwNow.spelling [])
  | .keyword .kwPrint => do
      let _ ← expectSymbol .leftParen .printOpen
      let args ← callArguments expression
      pure (.apply token.position Keyword.kwPrint.spelling args)
  | .identifier => do
      if ← accept (.symbol .leftParen) then
        let args ← callArguments expression
        pure (.apply token.position token.lexeme args)
      else
        pure (.ref token.position token.lexeme)
  | .keyword .kwCall => do
      let (tool, args) ← invocation expression
      pure (.tool token.position tool args)
  | .symbol .leftParen => do
      let inner ← expression
      let _ ← expectSymbol .rightParen .groupClose
      pure inner
  | .symbol .leftBracket => do
      let items ← separated .rightBracket true (item expression) []
      let _ ← expectSymbol .rightBracket .listClose
      pure (.list token.position items)
  | .symbol .leftBrace => do
      let entries ← separated .rightBrace true (property expression) []
      let _ ← expectSymbol .rightBrace .objectClose
      pure (.object token.position entries)
  | .endOfInput => blame .moreInput token
  | _ => blame .expression token

/-- Reads an expression without operators, indices and members. -/
def primary (expression : Reader Expr) : Reader Expr := do
  let token ← peek
  let _ ← advance
  primaryFrom expression token

/-- Reads one index or member behind an expression, if one follows. -/
def accessRound (room : Nat) (expression : Reader Expr) (subject : Expr) :
    Reader (Expr × Bool) := do
  match ← peekKind with
  | .symbol .leftBracket =>
      let token ← advance
      let place ← expression
      let _ ← expectSymbol .rightBracket .indexClose
      let e ← bounded room (.index token.position subject place)
      pure (e, true)
  | .symbol .dot =>
      let token ← advance
      let property ← expectName .memberName
      let e ← bounded room (.member token.position subject property)
      pure (e, true)
  | _ => pure (subject, false)

/-- Reads an expression without operators and the indices and members behind it. -/
def accessed (room : Nat) (expression : Reader Expr) : Reader Expr := do
  let first ← primary expression
  loop (accessRound room expression) first

/-- Reads an operand, where `inner` reads the operand of an operator and `expression` an
expression inside. -/
def operandWith (room : Nat) (inner expression : Reader Expr) : Reader Expr := do
  match UnaryOp.ofKind? (← peekKind) with
  | some op =>
      let token ← advance
      let e ← inner
      pure (.unary token.position op e)
  | none => accessed room expression

/-- Reads an operand in the given room. -/
def operand : Nat → Reader Expr
  | 0 => operandWith 0 tooDeep tooDeep
  | room + 1 =>
      let inner := operand room
      operandWith (room + 1) inner (chains room inner loosest)

/-- Reads an expression in the given room. -/
def expression : Nat → Reader Expr
  | 0 => tooDeep
  | room + 1 => chains room (operand room) loosest

end Grammar

end ToolScript
