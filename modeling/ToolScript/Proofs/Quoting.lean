import ToolScript.Proofs.Cutting
import ToolScript.Proofs.Locating.Lines

/-!
# A written literal is read back in front of any text

A literal is written without control characters, so it stays in its line. Wherever a token can
begin, it is cut as one string token with the value that was written, and the text behind it is
cut as it would be on its own. Nothing behind a literal can go on with an escape inside it: an
escape has one letter, or `u` and exactly four digits.
-/

namespace ToolScript

namespace Text.Quoted

theorem isControl_hexDigit : ∀ n < 16, isControl (hexDigit n) = false := by
  decide

theorem isControl_hexDigits4 (n : Nat) : ∀ d ∈ hexDigits4 n, isControl d = false := by
  have hdigit (m : Nat) := isControl_hexDigit (m % 16) (Nat.mod_lt m (by decide))
  simp [hexDigits4, hdigit]

/-- A character that has no escape of its own is spelled as it is, unless it is a control
character. -/
theorem isControl_spell (c : Char) : ∀ d ∈ spell c, isControl d = false := by
  have hescape {letter : Char} (hletter : isControl letter = false) :
      ∀ d ∈ ['\\', letter], isControl d = false := by
    intro d hd
    simp only [List.mem_cons, List.not_mem_nil, or_false] at hd
    rcases hd with rfl | rfl
    · decide
    · exact hletter
  unfold spell
  repeat' split
  · exact hescape (by decide)
  · exact hescape (by decide)
  · exact hescape (by decide)
  · exact hescape (by decide)
  · exact hescape (by decide)
  · exact hescape (by decide)
  · intro d hd
    simp only [List.mem_cons] at hd
    rcases hd with rfl | rfl | hd
    · decide
    · decide
    · exact isControl_hexDigits4 c.toNat d hd
  · next hcontrol =>
      intro d hd
      rw [List.mem_singleton.1 hd]
      exact Bool.not_eq_true _ ▸ hcontrol

theorem isControl_write (value : String) : ∀ d ∈ (write value).toList, isControl d = false := by
  intro d hd
  simp only [write, String.toList_ofList, List.cons_append, List.mem_cons, List.mem_append,
    List.mem_flatMap, List.not_mem_nil, or_false] at hd
  rcases hd with rfl | ⟨c, -, hd⟩ | rfl
  · decide
  · exact isControl_spell c d hd
  · decide

theorem not_mem_write (value : String) : '\n' ∉ (write value).toList := by
  intro hbreak
  exact absurd (isControl_write value '\n' hbreak) (by decide)

end Text.Quoted

namespace Lexer

/-- Where a token can begin, a written literal is cut as one string token with the value that was
written, and it takes the characters of the literal and no others. It has no control character,
so no line break: the text behind it is cut further on in the same line, as it would be alone. -/
theorem tokensFrom_write (value : String) (rest : List Char) (position : Position) :
    let written := (Text.Quoted.write value).toList
    let behind : Position := ⟨position.line, position.column + written.length⟩
    (∃ tail, written = '"' :: tail ∧
      piece '"' (tail ++ rest) = .ok ⟨.string, value.toList, written, rest⟩) ∧
    (∀ c ∈ written, Text.isControl c = false) ∧ '\n' ∉ written ∧
    position.after written = behind ∧
    tokensFrom position (written ++ rest) =
      (tokensFrom behind rest).map (⟨.string, value, position⟩ :: ·) := by
  intro written behind
  obtain ⟨tail, hwrite, hpiece⟩ := piece_write value
  have hbehind : position.after written = behind :=
    Position.after_of_not_mem (Text.Quoted.not_mem_write value) position
  refine ⟨⟨tail, hwrite, hpiece rest⟩, Text.Quoted.isControl_write value,
    Text.Quoted.not_mem_write value, hbehind, ?_⟩
  have hgap : gap (written ++ rest) = ([], '"' :: (tail ++ rest)) := by
    rw [show written = '"' :: tail from hwrite, List.cons_append, gap_cons fun ds heq => ?_]
    · rfl
    · exact absurd (List.cons.inj heq).1 (by decide)
  rw [tokensFrom_eq, hgap]
  simp only [tokensAt, Position.after_nil, hpiece rest, String.ofList_toList]
  rw [show position.after (Text.Quoted.write value).toList = behind from hbehind]
  cases tokensFrom behind rest <;> rfl

/-- A digit behind the shortest escape and behind the longest one. -/
example : (Text.Quoted.write "\x001\x852").toList ++ "3".toList = "\"\\01\\u00852\"3".toList ∧
    tokenize "\"\\01\\u00852\"3" = .ok [⟨.string, "\x001\x852", ⟨1, 1⟩⟩, ⟨.number, "3", ⟨1, 13⟩⟩,
      Token.endAt ⟨1, 14⟩] :=
  ⟨by decide, by cbv⟩

end Lexer

end ToolScript
