import ToolScript.Grammar.Statement
import ToolScript.Number

/-!
# What a text is cut into

The tokens of a text are pieces of it, each at its place, and one end of input behind the
text. A token that is cut as a number always has a value.
-/

namespace ToolScript

namespace Lexer

/-- The tokens of the source text before the end of input. -/
def Tokenizes (source : String) (tokens : List Token) : Prop :=
  ∃ place, tokenize source = .ok (tokens ++ [Token.endAt place])

/-- The token is not an end of input, and if it is a number it has a value. -/
structure Sensible (kind : Token.Kind) (lexeme : List Char) : Prop where
  inside : kind ≠ .endOfInput
  value : kind = .number → (Number.ofText? (String.ofList lexeme)).isSome = true

end Lexer

/-- A text splits where a run of characters of one class ends. -/
theorem Text.span_append {p : Char → Bool} {cs : List Char} (hcs : ∀ c ∈ cs, p c = true)
    (rest : List Char) (hrest : ∀ c ∈ rest.head?, p c = false) :
    (cs ++ rest).takeWhile p = cs ∧ (cs ++ rest).dropWhile p = rest := by
  rw [List.takeWhile_append_of_pos hcs, List.dropWhile_append_of_pos hcs]
  cases rest with
  | nil => simp
  | cons c rest => simp [hrest c (by simp)]

namespace Decimal

/-- Digits, or digits with a point and more digits behind them. -/
inductive Plain : List Char → Prop
  | whole {cs : List Char} (hne : cs ≠ []) (h : ∀ c ∈ cs, c.isDigit = true) : Plain cs
  | broken {cs ds : List Char} (hne : cs ≠ []) (h : ∀ c ∈ cs, c.isDigit = true) (hds : ds ≠ [])
      (h' : ∀ c ∈ ds, c.isDigit = true) : Plain (cs ++ '.' :: ds)

theorem Plain.begins {cs : List Char} (h : Plain cs) :
    ∃ c rest, cs = c :: rest ∧ c.isDigit = true := by
  cases h with
  | whole hne h =>
      obtain ⟨c, rest, rfl⟩ := List.exists_cons_of_ne_nil hne
      exact ⟨c, rest, rfl, h c (by simp)⟩
  | broken hne h =>
      obtain ⟨c, rest, rfl⟩ := List.exists_cons_of_ne_nil hne
      exact ⟨c, _, rfl, h c (by simp)⟩

theorem Plain.ofChars_isSome {cs : List Char} (h : Plain cs) : (ofChars? cs).isSome = true := by
  cases h with
  | whole hne h =>
      obtain ⟨htake, hdrop⟩ := Text.span_append h [] (by simp)
      rw [List.append_nil] at htake hdrop
      simp [ofChars?, htake, hdrop, fraction, hne, exponent?]
  | @broken cs ds hne h hds h' =>
      obtain ⟨htake, hdrop⟩ := Text.span_append h ('.' :: ds) (by simp)
      obtain ⟨htake', hdrop'⟩ := Text.span_append h' [] (by simp)
      rw [List.append_nil] at htake' hdrop'
      simp [ofChars?, htake, hdrop, fraction, htake', hdrop', hne, exponent?]

end Decimal

namespace Number

open Decimal (Plain)

theorem toLower_of_isDigit {c : Char} (h : c.isDigit = true) : c.toLower = c := by
  have hupper : ¬ (c.val ≥ 'A'.val ∧ c.val ≤ 'Z'.val) := by
    simp only [Char.isDigit, Bool.and_eq_true, decide_eq_true_eq] at h
    rintro ⟨hge, _⟩
    have hlt : c.val < 'A'.val := Nat.lt_of_le_of_lt h.2 (by decide)
    exact absurd hge (by simpa using hlt)
  unfold Char.toLower
  split
  · next hle => exact absurd hle hupper
  · rfl

/-- A text that begins with a digit is not a word that stands for a number. -/
theorem ne_of_isDigit {c : Char} (hc : c.isDigit = true) (rest : List Char) (word : String)
    (hword : word.toList.head?.any Char.isDigit = false) :
    String.ofList ((c :: rest).map Char.toLower) ≠ word := by
  rintro rfl
  simp [toLower_of_isDigit hc, hc] at hword

theorem ofText_plain {cs : List Char} (h : Plain cs) :
    ofText? (String.ofList cs) = (Decimal.ofChars? cs).map Decimal.toFloat := by
  obtain ⟨c, rest, rfl, hc⟩ := h.begins
  have hword : unsigned? (c :: rest) = (Decimal.ofChars? (c :: rest)).map Decimal.toFloat := by
    have hinf := ne_of_isDigit hc rest "inf" (by decide)
    have hinfinity := ne_of_isDigit hc rest "infinity" (by decide)
    have hnan := ne_of_isDigit hc rest "nan" (by decide)
    simp only [unsigned?, hinf, hinfinity, hnan, or_self, if_false]
  unfold ofText?
  rw [String.toList_ofList]
  split
  · next heq =>
      rw [(List.cons.inj heq).1] at hc
      cases hc
  · next heq =>
      rw [(List.cons.inj heq).1] at hc
      cases hc
  · exact hword

theorem ofText_isSome {cs : List Char} (h : Plain cs) :
    (ofText? (String.ofList cs)).isSome = true := by
  rw [ofText_plain h, Option.isSome_map]
  exact h.ofChars_isSome

end Number

namespace Lexer

open Decimal (Plain)

/-- A number is cut as digits, with a point only where digits follow it. -/
theorem plain_number {c : Char} (hc : c.isDigit = true) (cs : List Char) :
    Plain (number c cs).lexeme := by
  have hdigits {c : Char} (hc : c.isDigit = true) (cs : List Char) :
      ∀ d ∈ c :: cs.takeWhile Char.isDigit, d.isDigit = true :=
    List.forall_mem_cons.2 ⟨hc, List.all_eq_true.1 List.all_takeWhile⟩
  have hwhole := hdigits hc cs
  simp only [number, Piece.plain, fraction]
  split
  · next d rest heq =>
      split
      · next hd =>
          exact Plain.broken (List.cons_ne_nil _ _) hwhole (List.cons_ne_nil _ _)
            (hdigits hd rest)
      · rw [List.append_nil]
        exact .whole (by simp) hwhole
  · rw [List.append_nil]
    exact .whole (by simp) hwhole

/-- A piece is not the end of the text, and a number has a value. -/
theorem sensible_piece {c : Char} {cs : List Char} {p : Piece} (h : piece c cs = .ok p) :
    Sensible p.kind p.lexeme := by
  unfold piece at h
  split at h
  · cases h
    simp only [name, Piece.plain, nameKind]
    split <;> exact ⟨by simp, by simp⟩
  split at h
  · next hdigit =>
      cases h
      exact ⟨by simp [number, Piece.plain],
        fun _ => Number.ofText_isSome (plain_number hdigit cs)⟩
  split at h
  · unfold string at h
    split at h <;> cases h
    exact ⟨by simp, by simp⟩
  · unfold symbol single at h
    repeat' split at h
    all_goals cases h
    all_goals exact ⟨by simp [Piece.plain], by simp [Piece.plain]⟩

mutual

theorem not_blank_gap (cs : List Char) : ∀ c ∈ (gap cs).2.head?, Text.isBlank c = false := by
  unfold gap
  split
  · simp
  · next rest => exact not_blank_comment rest
  · next c rest _ =>
      split
      · exact not_blank_gap rest
      · next hblank => simpa using hblank
termination_by cs.length

theorem not_blank_comment (cs : List Char) :
    ∀ c ∈ (comment cs).2.head?, Text.isBlank c = false := by
  cases cs with
  | nil => simp [comment]
  | cons c rest =>
      unfold comment
      split
      · exact not_blank_gap rest
      · exact not_blank_comment rest
termination_by cs.length

end

/-- The token is a piece of the text `cs` that begins at `position`. -/
def CutFrom (position : Position) (cs : List Char) (token : Token) : Prop :=
  ∃ pre c rest p, cs = pre ++ c :: rest ∧ Text.isBlank c = false ∧ piece c rest = .ok p ∧
    token = ⟨p.kind, String.ofList p.lexeme, position.after pre⟩

theorem CutFrom.behind {position : Position} {cs : List Char} {token : Token} {front : List Char}
    (h : CutFrom (position.after front) cs token) : CutFrom position (front ++ cs) token := by
  obtain ⟨pre, c, rest, p, rfl, hblank, hpiece, rfl⟩ := h
  refine ⟨front ++ pre, c, rest, p, by simp, hblank, hpiece, ?_⟩
  rw [Position.after_append]

/-- The tokens of a text are its pieces and one end of input behind the text. -/
theorem tokensFrom_eq_ok {position : Position} {cs : List Char} {all : List Token}
    (h : tokensFrom position cs = .ok all) :
    ∃ tokens, all = tokens ++ [Token.endAt (position.after cs)] ∧
      ∀ token ∈ tokens, CutFrom position cs token := by
  fun_induction tokensFrom position cs generalizing all with
  | case1 position cs start =>
      rename_i hrest
      cases h
      have hgap := gap_append cs
      rw [hrest, List.append_nil] at hgap
      exact ⟨[], by simp [start, hgap], by simp⟩
  | case2 => cases h
  | case3 => cases h
  | case4 position cs start c rest hrest p hpiece tokens htokens =>
      rename_i ih
      cases h
      obtain ⟨others, rfl, hothers⟩ := ih htokens
      obtain ⟨tail, hraw, htail⟩ := piece_append hpiece
      have hcs : cs = (gap cs).1 ++ (p.raw ++ p.rest) := by
        rw [hraw, List.cons_append, htail, ← hrest, gap_append]
      have hfirst : CutFrom position cs ⟨p.kind, String.ofList p.lexeme, start⟩ :=
        ⟨(gap cs).1, c, rest, p, by rw [← hrest, gap_append],
          not_blank_gap cs c (by simp [hrest]), hpiece, rfl⟩
      have hplace : position.after cs = (start.after p.raw).after p.rest := by
        rw [← Position.after_append, ← Position.after_append, ← hcs]
      refine ⟨⟨p.kind, String.ofList p.lexeme, start⟩ :: others, ?_, ?_⟩
      · rw [hplace, List.cons_append]
      · intro token htoken
        rcases List.mem_cons.1 htoken with rfl | htoken
        · exact hfirst
        · rw [hcs]
          exact (hothers token htoken).behind.behind

theorem tokenize_eq_ok {source : String} {all : List Token} (h : tokenize source = .ok all) :
    ∃ tokens, Tokenizes source tokens ∧ ∃ place, all = tokens ++ [Token.endAt place] := by
  obtain ⟨tokens, rfl, _⟩ := tokensFrom_eq_ok h
  exact ⟨tokens, ⟨_, h⟩, _, rfl⟩

theorem Tokenizes.cut {source : String} {tokens : List Token} (h : Tokenizes source tokens) :
    ∀ token ∈ tokens, CutFrom .start source.toList token := by
  obtain ⟨place, hsource⟩ := h
  obtain ⟨others, heq, hothers⟩ := tokensFrom_eq_ok hsource
  obtain ⟨rfl, _⟩ := List.append_inj' heq rfl
  exact hothers

theorem Tokenizes.sensible {source : String} {tokens : List Token}
    (h : Tokenizes source tokens) :
    ∀ token ∈ tokens, Sensible token.kind token.lexeme.toList := by
  intro token htoken
  obtain ⟨pre, c, rest, p, -, -, hpiece, rfl⟩ := h.cut token htoken
  simpa using sensible_piece hpiece

end Lexer

end ToolScript
