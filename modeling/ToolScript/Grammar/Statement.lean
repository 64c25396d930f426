import ToolScript.Grammar.Expression
import ToolScript.Lexer

/-!
# The grammar of statements

A script is a row of statements with nothing between them. A block inside a statement
takes one unit of room. Reading a text first cuts it into tokens, so a flaw in the
text is reported before any fault of the grammar.
-/

namespace ToolScript

namespace Grammar

open Reader

/-- Reads a statement and puts it behind those already read. -/
def follow (statement : Reader Stmt) (stmts : List Stmt) : Reader (List Stmt × Bool) := do
  let stmt ← statement
  pure (stmts ++ [stmt], true)

/-- Reads a statement of a block, unless a word that ends the block follows. -/
def blockRound (statement : Reader Stmt) (kind : Block) (stmts : List Stmt) :
    Reader (List Stmt × Bool) := do
  match ← peekKind with
  | .keyword word =>
      if word ∈ kind.closers then pure (stmts, false) else follow statement stmts
  | .endOfInput => fail (.blockEnd kind)
  | _ => follow statement stmts

/-- Reads the statements of a block up to a word that ends it, which is left. -/
def block (statement : Reader Stmt) (kind : Block) : Reader (List Stmt) :=
  loop (blockRound statement kind) []

/-- Reads a statement, where `block` reads the blocks inside it. -/
def statementWith (expression : Reader Expr) (block : Block → Reader (List Stmt)) :
    Reader Stmt := do
  match ← peekKind with
  | .keyword .kwLet =>
      let token ← advance
      let name ← expectName .boundName
      let _ ← expectSymbol .assign .assign
      let value ← expression
      pure (.bind token.position name value)
  | .keyword .kwCall =>
      let token ← advance
      let (tool, args) ← invocation expression
      pure (.call token.position tool args)
  | .keyword .kwIf =>
      let token ← advance
      let condition ← expression
      let _ ← expectKeyword .kwThen
      let yes ← block .yes
      let no ← if ← accept (.keyword .kwElse) then some <$> block .no else pure none
      let _ ← expectKeyword .kwEnd
      pure (.branch token.position condition yes no)
  | .keyword .kwFor =>
      let token ← advance
      let name ← expectName .loopName
      let _ ← expectKeyword .kwIn
      let items ← expression
      let _ ← expectKeyword .kwDo
      let body ← block .body
      let _ ← expectKeyword .kwEnd
      pure (.each token.position name items body)
  | _ =>
      let e ← expression
      pure (.expr e.position e)

/-- Reads a statement in the given room. -/
def statement : Nat → Reader Stmt
  | 0 => statementWith (expression 0) fun _ => tooDeep
  | room + 1 => statementWith (expression (room + 1)) (block (statement room))

/-- Reads a statement of a script, unless the input ends. -/
def scriptRound (stmts : List Stmt) : Reader (List Stmt × Bool) := do
  if (← peekKind) = .endOfInput then pure (stmts, false)
  else follow (statement maxNesting) stmts

/-- Reads statements up to the end of input. -/
def statements : Reader (List Stmt) :=
  loop scriptRound []

/-- Reads an expression that takes up all of the input. -/
def wholeExpression : Reader Expr := do
  let e ← expression maxNesting
  if (← peekKind) = .endOfInput then pure e else fail .endOfExpression

/-- What a reader makes of a list of tokens. -/
def Reader.result {α : Type} (reader : Reader α) (tokens : List Token) : Except Fault α :=
  match reader (Stream.ofTokens tokens) with
  | .ok (a, _) => .ok a
  | .error fault => .error fault

end Grammar

/-- The script that a list of tokens spells. -/
def Script.ofTokens (tokens : List Token) : Except Failure Script :=
  match Grammar.statements.result tokens with
  | .ok stmts => .ok ⟨stmts⟩
  | .error fault => .error fault.failure

/-- The script in a source text. -/
def Script.parse (source : String) : Except Failure Script :=
  match Lexer.tokenize source with
  | .ok tokens => Script.ofTokens tokens
  | .error fault => .error fault.failure

/-- The expression that takes up a whole source text. -/
def Expr.parse (source : String) : Except Failure Expr :=
  match Lexer.tokenize source with
  | .ok tokens =>
      match Grammar.wholeExpression.result tokens with
      | .ok e => .ok e
      | .error fault => .error fault.failure
  | .error fault => .error fault.failure

end ToolScript
