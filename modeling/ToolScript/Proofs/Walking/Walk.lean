import ToolScript.Grammar.Statement

/-!
# Reading a list of tokens by index

A reader of a stream cannot look past the end of input: nothing stands there. A walk reads the
same grammar from a list, and it counts. Its cursor holds the index of the next token and the
number of levels it has gone down; taking a token and going up or down a level set the cursor
anew, and it stays where it is when the walk fails. Here nothing keeps an index inside the list,
and a loop goes on for as long as its rounds ask for it.

So a walk can finish in two ways that a reader does not have. It is `outside` when it looks at an
index without a token. It is `unfinished` when it would need more than a given limit of rounds in a
loop, or of phrases that are read inside each other. The course of a walk is how it finishes,
where, and all the cursors that were set on the way.
-/

namespace ToolScript.Grammar

/-- A list of tokens that ends in an end of input. There may be others before it. -/
structure TokenRow where
  tokens : List Token
  closed : tokens.getLast?.map Token.kind = some .endOfInput

namespace TokenRow

/-- The list with an end of input behind it, unless it ends in one. -/
def ofTokens (tokens : List Token) : TokenRow :=
  if h : tokens.getLast?.map Token.kind = some .endOfInput then ⟨tokens, h⟩
  else
    ⟨tokens ++ [Token.endAt ((tokens.getLast?.map Token.position).getD .start)], by
      rw [List.getLast?_concat]
      rfl⟩

/-- The index of the first end of input. -/
def stop (row : TokenRow) : Nat :=
  row.tokens.findIdx fun token => token.kind = .endOfInput

end TokenRow

/-- Where a walk is: the index of the next token, and the number of levels it has gone down. -/
structure Cursor where
  current : Nat
  depth : Nat
deriving DecidableEq, Repr

/-- Where a walk begins. -/
def Cursor.start : Cursor := ⟨0, 0⟩

/-- The cursor behind the next token. -/
def Cursor.after (c : Cursor) : Cursor := ⟨c.current + 1, c.depth⟩

/-- The cursor one level further down. -/
def Cursor.down (c : Cursor) : Cursor := ⟨c.current, c.depth + 1⟩

/-- How a walk finishes. -/
inductive Finish (α : Type) where
  | gives (a : α)
  | blames (fault : Fault)
  | outside
  | unfinished
deriving DecidableEq, Repr

/-- The course of a walk: how it finishes, where it is then, and the cursors that it set. -/
structure Course (α : Type) where
  finish : Finish α
  cursor : Cursor
  points : List Cursor
deriving DecidableEq, Repr

/-- The same course with other cursors in front. -/
def Course.behind {α : Type} (points : List Cursor) (course : Course α) : Course α :=
  { course with points := points ++ course.points }

/-- The same course with the cursor set to a level at its end, however it finishes. -/
def Course.backTo {α : Type} (course : Course α) (depth : Nat) : Course α :=
  let back : Cursor := ⟨course.cursor.current, depth⟩
  { course with cursor := back, points := course.points ++ [back] }

/-- Goes on from where a course ends if that gives a value. -/
def Course.andThen {α β : Type} (course : Course α) (next : α → Cursor → Course β) : Course β :=
  match course.finish with
  | .gives a => (next a course.cursor).behind course.points
  | .blames fault => ⟨.blames fault, course.cursor, course.points⟩
  | .outside => ⟨.outside, course.cursor, course.points⟩
  | .unfinished => ⟨.unfinished, course.cursor, course.points⟩

/-- A walk over a row of tokens, which takes its course from a cursor on. -/
def Walk (α : Type) : Type := TokenRow → Cursor → Course α

namespace Walk

variable {α β : Type}

instance : Monad Walk where
  pure a := fun _ c => ⟨.gives a, c, []⟩
  bind walk next := fun row c => (walk row c).andThen fun a => next a row

/-- The cursor. -/
def cursor : Walk Cursor :=
  fun _ c => ⟨.gives c, c, []⟩

/-- Sets the cursor. -/
def moveTo (d : Cursor) : Walk Unit :=
  fun _ _ => ⟨.gives (), d, [d]⟩

/-- The token at an index. -/
def tokenAt (i : Nat) : Walk Token := fun row c =>
  match row.tokens[i]? with
  | some token => ⟨.gives token, c, []⟩
  | none => ⟨.outside, c, []⟩

/-- Blames a given token. -/
def blame (expected : Expectation) (found : Token) : Walk α :=
  fun _ c => ⟨.blames ⟨expected, found⟩, c, []⟩

/-- Needs more than the limit. -/
def unfinished : Walk α :=
  fun _ c => ⟨.unfinished, c, []⟩

/-- The next token. -/
def peek : Walk Token := do
  tokenAt (← cursor).current

/-- The kind of the next token. -/
def peekKind : Walk Token.Kind := do
  pure (← peek).kind

/-- The token in front of the next one; at the beginning, the next one. -/
def last : Walk Token := do
  tokenAt ((← cursor).current - 1)

/-- Takes the next token unless it is an end of input, and gives the last one taken. -/
def advance : Walk Token := do
  let c ← cursor
  if (← peekKind) = .endOfInput then
    last
  else
    moveTo c.after
    last

/-- Blames the next token. -/
def fail (expected : Expectation) : Walk α := do
  blame expected (← peek)

/-- Takes the next token if it is of the given kind. -/
def accept (kind : Token.Kind) : Walk Bool := do
  if (← peekKind) = kind then
    let _ ← advance
    pure true
  else
    pure false

/-- Takes the next token, which has to be of the given kind. -/
def expect (kind : Token.Kind) (expected : Expectation) : Walk Token := do
  if (← peekKind) = kind then advance else fail expected

/-- Takes a given symbol. -/
def expectSymbol (symbol : Symbol) (expected : Expectation) : Walk Token :=
  expect (.symbol symbol) expected

/-- Takes a given word. -/
def expectKeyword (word : Keyword) : Walk Token :=
  expect (.keyword word) (.keyword word)

/-- Takes an identifier and gives its name. -/
def expectName (expected : Expectation) : Walk String := do
  let token ← expect .identifier expected
  pure token.lexeme

/-- Walks one level further down, and comes back to the level of the cursor however the walk
finishes. At the deepest level it complains about the next token. -/
def nested (walk : Walk α) : Walk α := fun row c =>
  if maxNesting ≤ c.depth then fail .lessNesting row c
  else ((walk row c.down).backTo c.depth).behind [c.down]

/-- Lets a tree pass that fits below the level of the cursor, and otherwise blames the last token
taken. -/
def bounded (e : Expr) : Walk Expr := do
  if (← cursor).depth + e.height ≤ maxNesting then pure e else blame .lessNesting (← last)

/-- Does rounds from `a` on for as long as a round asks for another one. -/
def loop (round : α → Walk (α × Bool)) : Nat → α → Walk α
  | 0, _ => unfinished
  | limit + 1, a => do
      let (b, again) ← round a
      if again then loop round limit b else pure b

/-- Reads one item and the comma behind it, if there is one. -/
def itemRound (close : Symbol) (trailing : Bool) (item : α → Walk α) (a : α) :
    Walk (α × Bool) := do
  let b ← item a
  if ← accept (.symbol .comma) then
    let closing := decide ((← peekKind) = .symbol close)
    pure (b, !(trailing && closing))
  else
    pure (b, false)

/-- Reads items with commas between them up to a closing symbol, which is left. -/
def separated (limit : Nat) (close : Symbol) (trailing : Bool) (item : α → Walk α) (a : α) :
    Walk α := do
  if (← peekKind) = .symbol close then
    pure a
  else
    loop (itemRound close trailing item) limit a

/-- The operator of the given level that the next token stands for. -/
def operator? (level : Nat) : Walk (Option BinaryOp) := do
  pure ((BinaryOp.ofKind? (← peekKind)).filter fun op => op.level = level)

/-- Reads an operator of one level and the operand behind it, if such an operator follows. -/
def chainRound (level : Nat) (operand : Walk Expr) (left : Expr) : Walk (Expr × Bool) := do
  match ← operator? level with
  | none => pure (left, false)
  | some op =>
      let token ← advance
      let right ← operand
      let e ← bounded (.binary token.position op left right)
      pure (e, true)

/-- Reads an expression with operators up to the given level. -/
def chains (limit : Nat) (operand : Walk Expr) : Nat → Walk Expr
  | 0 => operand
  | level + 1 => do
      let first ← chains limit operand level
      loop (chainRound (level + 1) (chains limit operand level)) limit first

/-- Reads one named argument of a tool and puts it to those already read. -/
def argument (expression : Walk Expr) (args : Dict Expr) : Walk (Dict Expr) := do
  let name ← expectName .argumentName
  let _ ← expectSymbol .colon .argumentColon
  let value ← expression
  pure (Dict.insert args name value)

/-- Reads the name of a tool and its arguments in braces. -/
def invocation (limit : Nat) (expression : Walk Expr) : Walk (String × Dict Expr) := do
  let tool ← expectName .toolName
  let _ ← expectSymbol .leftBrace .argumentsOpen
  let args ← separated limit .rightBrace false (argument expression) []
  let _ ← expectSymbol .rightBrace .argumentsClose
  pure (tool, args)

/-- Reads one expression and puts it behind those already read. -/
def item (expression : Walk Expr) (items : List Expr) : Walk (List Expr) := do
  let e ← expression
  pure (items ++ [e])

/-- Reads the arguments of a function behind the opening parenthesis. -/
def callArguments (limit : Nat) (expression : Walk Expr) : Walk (List Expr) := do
  let args ← separated limit .rightParen false (item expression) []
  let _ ← expectSymbol .rightParen .callClose
  pure args

/-- Reads the name of a property: an identifier or a string. -/
def propertyName : Walk String := do
  match ← peekKind with
  | .identifier | .string =>
      let token ← advance
      pure token.lexeme
  | _ => fail .propertyName

/-- Reads one property of an object and puts it to those already read. -/
def property (expression : Walk Expr) (entries : Dict Expr) : Walk (Dict Expr) := do
  let name ← propertyName
  let _ ← expectSymbol .colon .propertyColon
  let value ← expression
  pure (Dict.insert entries name value)

/-- Reads what follows the first token of an expression without operators, indices and members.
The token is still the next one if it cannot begin an expression. -/
def primaryFrom (limit : Nat) (expression : Walk Expr) (token : Token) : Walk Expr :=
  match token.kind with
  | .keyword .kwTrue => pure (.literal token.position (.bool true))
  | .keyword .kwFalse => pure (.literal token.position (.bool false))
  | .keyword .kwNull => pure (.literal token.position .null)
  | .number =>
      match Number.ofText? token.lexeme with
      | some n => pure (.literal token.position (.number n))
      | none => blame .numeral token
  | .string => pure (.literal token.position (.string token.lexeme))
  | .keyword .kwNow => do
      let _ ← expectSymbol .leftParen .nowOpen
      let _ ← expectSymbol .rightParen .nowClose
      pure (.apply token.position Keyword.kwNow.spelling [])
  | .keyword .kwPrint => do
      let _ ← expectSymbol .leftParen .printOpen
      let args ← callArguments limit expression
      pure (.apply token.position Keyword.kwPrint.spelling args)
  | .identifier => do
      if ← accept (.symbol .leftParen) then
        let args ← callArguments limit expression
        pure (.apply token.position token.lexeme args)
      else
        pure (.ref token.position token.lexeme)
  | .keyword .kwCall => do
      let (tool, args) ← invocation limit expression
      pure (.tool token.position tool args)
  | .symbol .leftParen => do
      let inner ← expression
      let _ ← expectSymbol .rightParen .groupClose
      pure inner
  | .symbol .leftBracket => do
      let items ← separated limit .rightBracket true (item expression) []
      let _ ← expectSymbol .rightBracket .listClose
      pure (.list token.position items)
  | .symbol .leftBrace => do
      let entries ← separated limit .rightBrace true (property expression) []
      let _ ← expectSymbol .rightBrace .objectClose
      pure (.object token.position entries)
  | .endOfInput => blame .moreInput token
  | _ => blame .expression token

/-- Whether an expression without operators, indices and members begins with such a token. -/
def beginsPrimary : Token.Kind → Bool
  | .identifier | .number | .string => true
  | .keyword word => word ∈ [.kwTrue, .kwFalse, .kwNull, .kwNow, .kwPrint, .kwCall]
  | .symbol sign => sign ∈ [.leftParen, .leftBracket, .leftBrace]
  | .endOfInput => false

/-- Reads an expression without operators, indices and members. -/
def primary (limit : Nat) (expression : Walk Expr) : Walk Expr := do
  let token ← peek
  if beginsPrimary token.kind then
    let _ ← advance
    primaryFrom limit expression token
  else
    primaryFrom limit expression token

/-- Reads one index or member behind an expression, if one follows. -/
def accessRound (expression : Walk Expr) (subject : Expr) : Walk (Expr × Bool) := do
  match ← peekKind with
  | .symbol .leftBracket =>
      let token ← advance
      let place ← expression
      let _ ← expectSymbol .rightBracket .indexClose
      let e ← bounded (.index token.position subject place)
      pure (e, true)
  | .symbol .dot =>
      let token ← advance
      let property ← expectName .memberName
      let e ← bounded (.member token.position subject property)
      pure (e, true)
  | _ => pure (subject, false)

/-- Reads an expression without operators and the indices and members behind it. -/
def accessed (limit : Nat) (expression : Walk Expr) : Walk Expr := do
  let first ← primary limit expression
  loop (accessRound expression) limit first

/-- Reads an operand, where `inner` reads the operand of an operator and `expression` an expression
inside. -/
def operandWith (limit : Nat) (inner expression : Walk Expr) : Walk Expr := do
  match UnaryOp.ofKind? (← peekKind) with
  | some op =>
      let token ← advance
      let e ← inner
      pure (.unary token.position op e)
  | none => accessed limit expression

/-- Reads an operand. What is inside it is read one level further down. -/
def operand : Nat → Walk Expr
  | 0 => unfinished
  | limit + 1 =>
      let inner := operand limit
      operandWith limit (nested inner) (nested (chains limit inner loosest))

/-- Reads an expression, one level further down. -/
def expression (limit : Nat) : Walk Expr :=
  nested (chains limit (operand limit) loosest)

/-- Reads a statement and puts it behind those already read. -/
def follow (statement : Walk Stmt) (stmts : List Stmt) : Walk (List Stmt × Bool) := do
  let stmt ← statement
  pure (stmts ++ [stmt], true)

/-- Reads a statement of a block, unless a word that ends the block follows. -/
def blockRound (statement : Walk Stmt) (kind : Block) (stmts : List Stmt) :
    Walk (List Stmt × Bool) := do
  match ← peekKind with
  | .keyword word =>
      if word ∈ kind.closers then pure (stmts, false) else follow statement stmts
  | .endOfInput => fail (.blockEnd kind)
  | _ => follow statement stmts

/-- Reads the statements of a block up to a word that ends it, which is left. -/
def block (limit : Nat) (statement : Walk Stmt) (kind : Block) : Walk (List Stmt) :=
  loop (blockRound statement kind) limit []

/-- Reads a statement, where `block` reads the blocks inside it. -/
def statementWith (limit : Nat) (expression : Walk Expr) (block : Block → Walk (List Stmt)) :
    Walk Stmt := do
  match ← peekKind with
  | .keyword .kwLet =>
      let token ← advance
      let name ← expectName .boundName
      let _ ← expectSymbol .assign .assign
      let value ← expression
      pure (.bind token.position name value)
  | .keyword .kwCall =>
      let token ← advance
      let (tool, args) ← invocation limit expression
      pure (.call token.position tool args)
  | .keyword .kwIf =>
      let token ← advance
      let condition ← expression
      let _ ← expectKeyword .kwThen
      let yes ← block .yes
      let no ← if ← accept (.keyword .kwElse) then some <$> block .no else pure none
      let _ ← expectKeyword .kwEnd
      pure (.branch token.position condition yes no)
  | .keyword .kwFor =>
      let token ← advance
      let name ← expectName .loopName
      let _ ← expectKeyword .kwIn
      let items ← expression
      let _ ← expectKeyword .kwDo
      let body ← block .body
      let _ ← expectKeyword .kwEnd
      pure (.each token.position name items body)
  | _ =>
      let e ← expression
      pure (.expr e.position e)

/-- Reads a statement. Its blocks are read one level further down. -/
def statement : Nat → Walk Stmt
  | 0 => unfinished
  | limit + 1 =>
      statementWith limit (expression limit) fun kind =>
        nested (block limit (statement limit) kind)

/-- Reads a statement of a script, unless the input ends. -/
def scriptRound (limit : Nat) (stmts : List Stmt) : Walk (List Stmt × Bool) := do
  if (← peekKind) = .endOfInput then pure (stmts, false)
  else follow (statement limit) stmts

/-- Reads statements up to the end of input. -/
def statements (limit : Nat) : Walk (List Stmt) :=
  loop (scriptRound limit) limit []

end Walk

end ToolScript.Grammar
