import ToolScript.Grammar.Fault

/-!
# Reading a row of tokens

A reader sees the tokens up to the first end of input, the last token it took, and
the end of input itself. Reading never goes past the end.
-/

namespace ToolScript.Grammar

/-- The tokens still to be read. -/
structure Stream where
  last : Token
  ahead : List Token
  stop : Token
deriving DecidableEq, Repr

namespace Stream

/-- The next token; at the end, the end of input. -/
def next (s : Stream) : Token :=
  s.ahead.headD s.stop

/-- The stream of a list of tokens. Tokens behind the first end of input are never
read, and a list without one is closed where its last token stands. -/
def ofTokens (tokens : List Token) : Stream :=
  let ahead := tokens.takeWhile fun token => token.kind ≠ .endOfInput
  let stop :=
    (tokens.find? fun token => token.kind = .endOfInput).getD
      (Token.endAt ((tokens.getLast?.map Token.position).getD .start))
  ⟨ahead.headD stop, ahead, stop⟩

end Stream

/-- A reader of tokens that gives a result or a fault. -/
abbrev Reader := StateT Stream (Except Fault)

namespace Reader

variable {α : Type}

/-- The next token, which stays where it is. -/
def peek : Reader Token :=
  fun s => .ok (s.next, s)

/-- The kind of the next token. -/
def peekKind : Reader Token.Kind :=
  fun s => .ok (s.next.kind, s)

/-- Takes the next token. At the end there is none, and the last token taken comes
again. -/
def advance : Reader Token := fun s =>
  match s.ahead with
  | [] => .ok (s.last, s)
  | token :: rest => .ok (token, { s with last := token, ahead := rest })

/-- Blames the next token. -/
def fail (expected : Expectation) : Reader α :=
  fun s => .error ⟨expected, s.next⟩

/-- Blames a given token. -/
def blame (expected : Expectation) (found : Token) : Reader α :=
  fun _ => .error ⟨expected, found⟩

/-- Takes the next token if it is of the given kind. -/
def accept (kind : Token.Kind) : Reader Bool := do
  if (← peekKind) = kind then
    let _ ← advance
    pure true
  else
    pure false

/-- Takes the next token, which has to be of the given kind. -/
def expect (kind : Token.Kind) (expected : Expectation) : Reader Token := do
  if (← peekKind) = kind then advance else fail expected

/-- Takes a given symbol. -/
def expectSymbol (symbol : Symbol) (expected : Expectation) : Reader Token :=
  expect (.symbol symbol) expected

/-- Takes a given word. -/
def expectKeyword (word : Keyword) : Reader Token :=
  expect (.keyword word) (.keyword word)

/-- Takes an identifier and gives its name. -/
def expectName (expected : Expectation) : Reader String := do
  let token ← expect .identifier expected
  pure token.lexeme

/-- Does rounds from `a` on for as long as a round asks for another one. A round that
takes no token is the last. -/
def loop (round : α → Reader (α × Bool)) (a : α) : Reader α := fun s =>
  match round a s with
  | .error fault => .error fault
  | .ok ((b, again), t) =>
      if again ∧ t.ahead.length < s.ahead.length then loop round b t else .ok (b, t)
termination_by s => s.ahead.length

/-- Reads one item and the comma behind it, if there is one. Another item has to follow
the comma, unless it is a `trailing` one and the closing symbol follows. -/
def itemRound (close : Symbol) (trailing : Bool) (item : α → Reader α) (a : α) :
    Reader (α × Bool) := do
  let b ← item a
  if ← accept (.symbol .comma) then
    let closing := decide ((← peekKind) = .symbol close)
    pure (b, !(trailing && closing))
  else
    pure (b, false)

/-- Reads items with commas between them up to a closing symbol, which is left. With
`trailing` set, a comma may also stand behind the last item. -/
def separated (close : Symbol) (trailing : Bool) (item : α → Reader α) (a : α) : Reader α := do
  if (← peekKind) = .symbol close then
    pure a
  else
    loop (itemRound close trailing item) a

end Reader

end ToolScript.Grammar
