import ToolScript.Failure
import ToolScript.Text.Quoted
import ToolScript.Token

/-!
# From text to tokens

A source text is a row of pieces with gaps between them. A gap holds blank
characters and comments, which go from two slashes to the end of the line. A piece
is the longest name, number, string literal or symbol that can be read. Pieces are
cut without regard to positions; the position of each token is then counted from
the text in front of it.
-/

namespace ToolScript.Lexer

/-- Puts `taken` in front of the first part of a split text. -/
def prepend (taken : List Char) (parts : List Char × List Char) : List Char × List Char :=
  (taken ++ parts.1, parts.2)

mutual

/-- Splits off the gap at the front of a text. -/
def gap : List Char → List Char × List Char
  | [] => ([], [])
  | '/' :: '/' :: rest => prepend ['/', '/'] (comment rest)
  | c :: rest => if Text.isBlank c then prepend [c] (gap rest) else ([], c :: rest)
termination_by structural cs => cs

/-- Splits off the rest of a comment, its line break, and the gap behind it. -/
def comment : List Char → List Char × List Char
  | [] => ([], [])
  | c :: rest => prepend [c] (if c = '\n' then gap rest else comment rest)
termination_by structural cs => cs

end

/-- Whether a name can begin with the character. -/
def isNameStart (c : Char) : Bool :=
  c.isAlpha || c = '_'

/-- Whether a name can go on with the character. -/
def isNamePart (c : Char) : Bool :=
  c.isAlphanum || c = '_'

/-- Why no piece can be read. -/
inductive Flaw where
  | unexpected (c : Char)
  | loneBang
  | unterminated
  | escape (flaw : Text.Quoted.Flaw)
deriving DecidableEq, Repr

/-- What is wrong, in words. -/
def Flaw.message : Flaw → String
  | .unexpected c => "Unexpected character '" ++ c.toString ++ "'"
  | .loneBang => "Unexpected character '!' (use NOT for negation)"
  | .unterminated => "Unterminated string literal"
  | .escape flaw => flaw.message

/-- A flaw behind the text `read` of a piece that was begun. -/
structure Stop where
  flaw : Flaw
  read : List Char
deriving DecidableEq, Repr

/-- A piece cut off the front of a text. -/
structure Piece where
  kind : Token.Kind
  lexeme : List Char
  raw : List Char
  rest : List Char
deriving DecidableEq, Repr

/-- The piece that is its own lexeme. -/
def Piece.plain (kind : Token.Kind) (raw rest : List Char) : Piece :=
  ⟨kind, raw, raw, rest⟩

/-- The kind of a name: a reserved word, or else an identifier. -/
def nameKind (name : List Char) : Token.Kind :=
  match Keyword.ofSpelling? (String.ofList name) with
  | some word => .keyword word
  | none => .identifier

/-- The point and the digits that continue a number: a point counts only if a digit
follows it. -/
def fraction : List Char → List Char × List Char
  | '.' :: d :: rest =>
      if d.isDigit then
        ('.' :: d :: rest.takeWhile Char.isDigit, rest.dropWhile Char.isDigit)
      else ([], '.' :: d :: rest)
  | cs => ([], cs)

/-- The number that begins with the digit `c`. -/
def number (c : Char) (cs : List Char) : Piece :=
  let parts := fraction (cs.dropWhile Char.isDigit)
  .plain .number (c :: (cs.takeWhile Char.isDigit ++ parts.1)) parts.2

/-- The name that begins with `c`. -/
def name (c : Char) (cs : List Char) : Piece :=
  let word := c :: cs.takeWhile isNamePart
  .plain (nameKind word) word (cs.dropWhile isNamePart)

/-- The string literal whose opening mark is `mark`. -/
def string (mark : Char) (cs : List Char) : Except Stop Piece :=
  match Text.Quoted.read mark cs with
  | .ok lit => .ok ⟨.string, lit.value, mark :: lit.raw, lit.rest⟩
  | .error .unterminated => .error ⟨.unterminated, []⟩
  | .error (.escape read flaw) => .error ⟨.escape flaw, mark :: read⟩

/-- The symbol that is `c` alone. -/
def single (c : Char) (cs : List Char) : Except Stop Piece :=
  match Symbol.ofChar? c with
  | some symbol => .ok (.plain (.symbol symbol) [c] cs)
  | none => .error ⟨if c = '!' then .loneBang else .unexpected c, []⟩

/-- The symbol that begins with `c`; one with an equals sign behind it is preferred. -/
def symbol (c : Char) : List Char → Except Stop Piece
  | '=' :: rest =>
      match Symbol.ofCharEqual? c with
      | some symbol => .ok (.plain (.symbol symbol) [c, '='] rest)
      | none => single c ('=' :: rest)
  | cs => single c cs

/-- The piece that begins with `c`. -/
def piece (c : Char) (cs : List Char) : Except Stop Piece :=
  if isNameStart c then .ok (name c cs)
  else if c.isDigit then .ok (number c cs)
  else if c = '"' || c = '\'' then string c cs
  else symbol c cs

mutual

theorem gap_append (cs : List Char) : (gap cs).1 ++ (gap cs).2 = cs := by
  unfold gap
  split
  · rfl
  · next rest => simp [prepend, comment_append rest]
  · next rest _ =>
      split
      · simp [prepend, gap_append rest]
      · rfl
termination_by cs.length

theorem comment_append (cs : List Char) : (comment cs).1 ++ (comment cs).2 = cs := by
  cases cs with
  | nil => rfl
  | cons c rest =>
      unfold comment
      split
      · simp [prepend, gap_append rest]
      · simp [prepend, comment_append rest]
termination_by cs.length

end

theorem fraction_append (cs : List Char) : (fraction cs).1 ++ (fraction cs).2 = cs := by
  unfold fraction
  split
  · split <;> simp [List.takeWhile_append_dropWhile]
  · rfl

theorem single_append {c : Char} {cs : List Char} {p : Piece} (h : single c cs = .ok p) :
    ∃ tail, p.raw = c :: tail ∧ tail ++ p.rest = cs := by
  unfold single at h
  split at h
  · cases h
    exact ⟨[], rfl, rfl⟩
  · cases h

theorem symbol_append {c : Char} {cs : List Char} {p : Piece} (h : symbol c cs = .ok p) :
    ∃ tail, p.raw = c :: tail ∧ tail ++ p.rest = cs := by
  unfold symbol at h
  split at h
  · split at h
    · cases h
      exact ⟨['='], rfl, rfl⟩
    · exact single_append h
  · exact single_append h

theorem string_append {mark : Char} {cs : List Char} {p : Piece} (h : string mark cs = .ok p) :
    ∃ tail, p.raw = mark :: tail ∧ tail ++ p.rest = cs := by
  unfold string at h
  split at h
  · next lit hlit =>
      cases h
      exact ⟨lit.raw, rfl, Text.Quoted.raw_append_rest hlit⟩
  · cases h
  · cases h

/-- A piece begins with its first character, and with the rest it makes up the text. -/
theorem piece_append {c : Char} {cs : List Char} {p : Piece} (h : piece c cs = .ok p) :
    ∃ tail, p.raw = c :: tail ∧ tail ++ p.rest = cs := by
  unfold piece at h
  split at h
  · cases h
    exact ⟨_, rfl, List.takeWhile_append_dropWhile⟩
  · split at h
    · cases h
      let parts := fraction (cs.dropWhile Char.isDigit)
      refine ⟨cs.takeWhile Char.isDigit ++ parts.1, rfl, ?_⟩
      rw [List.append_assoc]
      exact (congrArg _ (fraction_append _)).trans List.takeWhile_append_dropWhile
    · split at h
      · exact string_append h
      · exact symbol_append h

theorem length_rest_lt {c : Char} {cs : List Char} {p : Piece} (h : piece c cs = .ok p) :
    p.rest.length < (c :: cs).length := by
  obtain ⟨tail, _, rfl⟩ := piece_append h
  simp only [List.length_cons, List.length_append]
  omega

theorem length_gap_le (cs : List Char) : (gap cs).2.length ≤ cs.length := by
  have h := congrArg List.length (gap_append cs)
  simp only [List.length_append] at h
  omega

/-- A flaw of the source text and its place. -/
structure Fault where
  flaw : Flaw
  position : Position
deriving DecidableEq, Repr

/-- The failure that a flaw of the text amounts to. -/
def Fault.failure (fault : Fault) : Failure :=
  (Cause.lexical fault.flaw.message).located fault.position

/-- The tokens of a text that begins at `position`. -/
def tokensFrom (position : Position) (cs : List Char) : Except Fault (List Token) :=
  let start := position.after (gap cs).1
  match _hrest : (gap cs).2 with
  | [] => .ok [Token.endAt start]
  | c :: rest =>
      match _hpiece : piece c rest with
      | .error stop => .error ⟨stop.flaw, start.after stop.read⟩
      | .ok p =>
          match tokensFrom (start.after p.raw) p.rest with
          | .error fault => .error fault
          | .ok tokens => .ok (⟨p.kind, String.ofList p.lexeme, start⟩ :: tokens)
termination_by cs.length
decreasing_by
  have hlt := length_rest_lt _hpiece
  have hle := length_gap_le cs
  rw [_hrest] at hle
  omega

/-- The tokens of a source text, the last of which marks its end. -/
def tokenize (source : String) : Except Fault (List Token) :=
  tokensFrom .start source.toList

end ToolScript.Lexer
