import ToolScript.Text.Blank

/-!
# String literals

A literal stands between two equal quotation marks, double or single. Inside it a
backslash begins an escape: one letter, or `u` with four hexadecimal digits. The
writer uses double quotes and escapes quotes, backslashes and control characters
only, so a written literal never holds a line break.

The reader works on the characters behind the opening mark. It returns the value,
the characters it read up to and with the closing mark, and the rest.
-/

namespace ToolScript.Text.Quoted

/-- What is wrong with an escape. -/
inductive Flaw where
  | unknown (letter : Char)
  | hexDigits
  | notCharacter (code : Nat)
deriving DecidableEq, Repr

/-- Why a literal cannot be read. For a bad escape, `read` is the text behind the
opening mark up to and with the backslash of the escape. -/
inductive Fault where
  | unterminated
  | escape (read : List Char) (flaw : Flaw)
deriving DecidableEq, Repr

/-- The same fault, seen from `raw` further to the left. -/
def Fault.behind (raw : List Char) : Fault → Fault
  | .unterminated => .unterminated
  | .escape read flaw => .escape (raw ++ read) flaw

/-- A literal that has been read. -/
structure Literal where
  value : List Char
  raw : List Char
  rest : List Char
deriving DecidableEq, Repr

/-- The literal with the character `c`, spelled `raw`, in front. -/
def Literal.behind (raw : List Char) (c : Char) (lit : Literal) : Literal :=
  { lit with value := c :: lit.value, raw := raw ++ lit.raw }

/-- Puts the character `c`, spelled `raw`, in front of what was read. -/
def extend (raw : List Char) (c : Char) : Except Fault Literal → Except Fault Literal
  | .error fault => .error (fault.behind raw)
  | .ok lit => .ok (lit.behind raw c)

/-- The characters that an escape letter stands for. -/
def escapes : List (Char × Char) :=
  [('n', '\n'), ('r', '\r'), ('t', '\t'), ('0', '\x00'), ('"', '"'), ('\'', '\''),
    ('\\', '\\'), ('/', '/')]

/-- The value of a hexadecimal digit of either case. -/
def hexValue? (c : Char) : Option Nat :=
  if '0' ≤ c && c ≤ '9' then some (c.toNat - '0'.toNat)
  else if 'a' ≤ c && c ≤ 'f' then some (c.toNat - 'a'.toNat + 10)
  else if 'A' ≤ c && c ≤ 'F' then some (c.toNat - 'A'.toNat + 10)
  else none

/-- The hexadecimal digit with a value below sixteen. -/
def hexDigit (n : Nat) : Char :=
  Nat.digitChar n

/-- The last four hexadecimal digits of a number. -/
def hexDigits4 (n : Nat) : List Char :=
  [hexDigit (n / 4096 % 16), hexDigit (n / 256 % 16), hexDigit (n / 16 % 16),
    hexDigit (n % 16)]

/-- The character with the given code, if the code belongs to one. -/
def charOfCode? (code : Nat) : Option Char :=
  if code.isValidChar then some (Char.ofNat code) else none

/-- The code that four hexadecimal digits spell. -/
def code? (a b c d : Char) : Option Nat := do
  let a ← hexValue? a
  let b ← hexValue? b
  let c ← hexValue? c
  let d ← hexValue? d
  pure (((a * 16 + b) * 16 + c) * 16 + d)

/-- Reads a literal whose closing mark is `mark`. -/
def read (mark : Char) : List Char → Except Fault Literal
  | [] => .error .unterminated
  | c :: rest =>
      if c = mark then .ok ⟨[], [c], rest⟩
      else if c = '\\' then
        match rest with
        | [] => .error .unterminated
        | 'u' :: h₁ :: h₂ :: h₃ :: h₄ :: rest =>
            match code? h₁ h₂ h₃ h₄ with
            | none => .error (.escape [c] .hexDigits)
            | some code =>
                match charOfCode? code with
                | none => .error (.escape [c] (.notCharacter code))
                | some value => extend [c, 'u', h₁, h₂, h₃, h₄] value (read mark rest)
        | 'u' :: _ => .error (.escape [c] .hexDigits)
        | letter :: rest =>
            match escapes.lookup letter with
            | none => .error (.escape [c] (.unknown letter))
            | some value => extend [c, letter] value (read mark rest)
      else extend [c] c (read mark rest)

/-- How one character of a string is spelled inside double quotes. -/
def spell (c : Char) : List Char :=
  if c = '"' then ['\\', '"']
  else if c = '\\' then ['\\', '\\']
  else if c = '\n' then ['\\', 'n']
  else if c = '\r' then ['\\', 'r']
  else if c = '\t' then ['\\', 't']
  else if c = '\x00' then ['\\', '0']
  else if isControl c then '\\' :: 'u' :: hexDigits4 c.toNat
  else [c]

/-- The literal that stands for a string. -/
def write (value : String) : String :=
  String.ofList ('"' :: value.toList.flatMap spell ++ ['"'])

/-- What a reader reports about a bad escape. -/
def Flaw.message : Flaw → String
  | .unknown letter => "Invalid escape sequence '\\" ++ letter.toString ++ "'"
  | .hexDigits => "Expected four hex digits after '\\u'"
  | .notCharacter code => "Invalid unicode escape '\\u" ++ String.ofList (hexDigits4 code) ++ "'"

theorem extend_eq_ok_iff {raw : List Char} {c : Char} {read : Except Fault Literal}
    {lit : Literal} :
    extend raw c read = .ok lit ↔ ∃ inner, read = .ok inner ∧ lit = inner.behind raw c := by
  cases read <;> simp [extend, eq_comm]

/-- Nothing is lost: what was read and the rest make up the text. -/
theorem raw_append_rest {mark : Char} {cs : List Char} {lit : Literal}
    (h : read mark cs = .ok lit) : lit.raw ++ lit.rest = cs := by
  fun_induction read mark cs generalizing lit with
  | case2 => cases h; rfl
  | case1 | case3 | case4 | case5 | case7 | case8 => simp at h
  | case6 _ _ _ _ _ _ _ _ _ _ ih | case9 _ _ _ _ _ _ _ ih | case10 _ _ _ _ ih =>
      obtain ⟨inner, hinner, rfl⟩ := extend_eq_ok_iff.1 h
      simp [Literal.behind, ih hinner]

end ToolScript.Text.Quoted
