import ToolScript.Proofs.Lossless

/-!
# Lines are cut one after the other

No piece goes on behind a line break unless it is a string literal, and a literal that is closed
in front of the break does not see what follows. So a text that can be cut is cut in the same way
when a line break and another text stand behind it, and the other text is cut as it would be
alone, only further down.
-/

namespace ToolScript

/-- The same column, some lines further down. -/
def Position.lowered (lines : Nat) (p : Position) : Position :=
  ⟨p.line + lines, p.column⟩

/-- The same token, some lines further down. -/
def Token.lowered (lines : Nat) (token : Token) : Token :=
  { token with position := token.position.lowered lines }

namespace Position

theorem step_lowered (lines : Nat) (p : Position) (c : Char) :
    (p.lowered lines).step c = (p.step c).lowered lines := by
  unfold step lowered
  split
  · rw [Nat.add_right_comm]
  · rfl

theorem after_lowered (lines : Nat) (p : Position) (cs : List Char) :
    (p.lowered lines).after cs = (p.after cs).lowered lines := by
  induction cs generalizing p with
  | nil => rfl
  | cons c rest ih => rw [after_cons, step_lowered, ih, after_cons]

/-- Behind a text and a line break it goes on as at the start, below the lines of the text. -/
theorem step_break (cs : List Char) :
    (start.after cs).step '\n' = start.lowered (cs.count '\n' + 1) := by
  rw [step, if_pos rfl, line_after]
  exact congrArg (Position.mk · 1) (Nat.add_assoc _ _ _)

end Position

namespace Lexer

/-- The same fault, some lines further down. -/
def Fault.lowered (lines : Nat) (fault : Fault) : Fault :=
  { fault with position := fault.position.lowered lines }

/-- What a text is cut into, some lines further down. -/
def lowered (lines : Nat) : Except Fault (List Token) → Except Fault (List Token)
  | .ok tokens => .ok (tokens.map (Token.lowered lines))
  | .error fault => .error (fault.lowered lines)

/-- Where a text begins decides on the places of its tokens and on nothing else. -/
theorem tokensFrom_lowered (lines : Nat) (p : Position) (cs : List Char) :
    tokensFrom (p.lowered lines) cs = lowered lines (tokensFrom p cs) := by
  fun_induction tokensFrom p cs with
  | case1 p cs start =>
      rename_i hrest
      rw [tokensFrom_eq, hrest, Position.after_lowered]
      rfl
  | case2 p cs start c rest hrest stop hpiece =>
      rw [tokensFrom_eq, hrest, Position.after_lowered]
      simp only [tokensAt, hpiece, Position.after_lowered]
      rfl
  | case3 p cs start c rest hrest q hpiece fault hfault =>
      rename_i ih
      rw [hfault] at ih
      rw [tokensFrom_eq, hrest, Position.after_lowered]
      simp only [tokensAt, hpiece, Position.after_lowered, ih, start, lowered]
  | case4 p cs start c rest hrest q hpiece tokens htokens =>
      rename_i ih
      rw [htokens] at ih
      rw [tokensFrom_eq, hrest, Position.after_lowered]
      simp only [tokensAt, hpiece, Position.after_lowered, ih, start, lowered]
      rfl

section Break

variable (cs ds : List Char)

/-- A run of characters ends at a line break. -/
theorem span_break {p : Char → Bool} (h : p '\n' = false) :
    (cs ++ '\n' :: ds).takeWhile p = cs.takeWhile p ∧
      (cs ++ '\n' :: ds).dropWhile p = cs.dropWhile p ++ '\n' :: ds := by
  induction cs with
  | nil => simp [h]
  | cons c rest ih => by_cases hc : p c = true <;> simp [hc, ih]

theorem name_break (c : Char) :
    name c (cs ++ '\n' :: ds) = { name c cs with rest := (name c cs).rest ++ '\n' :: ds } := by
  obtain ⟨htake, hdrop⟩ := span_break cs ds (p := isNamePart) (by decide)
  simp only [name, Piece.plain, htake, hdrop]

/-- A point in front of a line break has no digits behind it. -/
theorem fraction_break :
    fraction (cs ++ '\n' :: ds) = ((fraction cs).1, (fraction cs).2 ++ '\n' :: ds) := by
  have hbreak : Char.isDigit '\n' = false := by decide
  cases cs with
  | nil => rfl
  | cons c rest =>
      by_cases hc : c = '.'
      · subst hc
        cases rest with
        | nil => simp [fraction, hbreak]
        | cons d rest =>
            obtain ⟨htake, hdrop⟩ := span_break rest ds hbreak
            by_cases hd : d.isDigit = true <;> simp [fraction, hd, htake, hdrop]
      · simp [fraction, hc]

theorem number_break (c : Char) :
    number c (cs ++ '\n' :: ds) =
      { number c cs with rest := (number c cs).rest ++ '\n' :: ds } := by
  obtain ⟨htake, hdrop⟩ := span_break cs ds (p := Char.isDigit) (by decide)
  simp only [number, Piece.plain, htake, hdrop, fraction_break]

variable {cs} {c : Char} {p : Piece}

/-- A literal ends at its closing mark, whatever follows. -/
theorem string_append_rest (h : string c cs = .ok p) :
    string c (cs ++ ds) = .ok { p with rest := p.rest ++ ds } := by
  unfold string at h
  split at h
  · next lit hlit =>
      cases h
      rw [string, ← Text.Quoted.raw_append_rest hlit, List.append_assoc,
        Text.Quoted.read_raw hlit]
  · cases h
  · cases h

theorem single_break (h : single c cs = .ok p) :
    single c (cs ++ '\n' :: ds) = .ok { p with rest := p.rest ++ '\n' :: ds } := by
  unfold single at h ⊢
  split at h
  · cases h
    rfl
  · cases h

theorem symbol_break (h : symbol c cs = .ok p) :
    symbol c (cs ++ '\n' :: ds) = .ok { p with rest := p.rest ++ '\n' :: ds } := by
  unfold symbol at h
  split at h
  · next rest =>
      split at h
      · next sign hsign =>
          cases h
          simp only [symbol, List.cons_append, hsign, Piece.plain]
      · next hsign =>
          simpa only [symbol, List.cons_append, hsign] using single_break ds h
  · next hequals =>
      rw [symbol_eq_single, single_break ds h]
      intro rest heq
      cases cs with
      | nil => cases heq
      | cons d others =>
          obtain ⟨rfl, -⟩ := List.cons.inj heq
          exact absurd rfl (hequals others)

/-- A piece of a text stays the same with a line break behind the text. -/
theorem piece_break (h : piece c cs = .ok p) :
    piece c (cs ++ '\n' :: ds) = .ok { p with rest := p.rest ++ '\n' :: ds } := by
  unfold piece at h ⊢
  split at h
  · next hname =>
      cases h
      rw [if_pos hname, name_break]
  next hname =>
  rw [if_neg hname]
  split at h
  · next hdigit =>
      cases h
      rw [if_pos hdigit, number_break]
  next hdigit =>
  rw [if_neg hdigit]
  split at h
  · next hmark =>
      rw [if_pos hmark]
      exact string_append_rest _ h
  · next hmark =>
      rw [if_neg hmark]
      exact symbol_break ds h

end Break

/-- What becomes of a split text, with a line break and the text `ds` behind it: a gap that reaches
the end goes on, any other one stays. -/
def splitBreak (cs ds : List Char) (parts : List Char × List Char) : List Char × List Char :=
  if parts.2 = [] then prepend (cs ++ ['\n']) (gap ds) else (parts.1, parts.2 ++ '\n' :: ds)

theorem splitBreak_prepend (taken cs ds : List Char) (parts : List Char × List Char) :
    splitBreak (taken ++ cs) ds (prepend taken parts) = prepend taken (splitBreak cs ds parts) := by
  by_cases h : parts.2 = [] <;> simp [splitBreak, prepend, h]

mutual

theorem gap_break (cs ds : List Char) :
    gap (cs ++ '\n' :: ds) = splitBreak cs ds (gap cs) := by
  cases cs with
  | nil => rfl
  | cons c rest =>
      by_cases hslash : ∃ body, c :: rest = '/' :: '/' :: body
      · obtain ⟨body, heq⟩ := hslash
        obtain ⟨rfl, rfl⟩ := List.cons.inj heq
        have hsplit := splitBreak_prepend ['/', '/'] body ds (comment body)
        rw [← comment_break body ds] at hsplit
        simpa only [gap, List.cons_append, List.nil_append] using hsplit.symm
      · have hrest (body : List Char) : c :: rest ≠ '/' :: '/' :: body :=
          fun heq => hslash ⟨body, heq⟩
        have hbreak (body : List Char) : c :: (rest ++ '\n' :: ds) ≠ '/' :: '/' :: body := by
          intro heq
          cases rest with
          | nil => cases heq
          | cons d others =>
              obtain ⟨rfl, htail⟩ := List.cons.inj heq
              obtain ⟨rfl, -⟩ := List.cons.inj htail
              exact hrest others rfl
        rw [List.cons_append, gap_cons hbreak, gap_cons hrest]
        split
        · rw [gap_break rest ds]
          exact (splitBreak_prepend [c] rest ds (gap rest)).symm
        · rfl
termination_by cs.length

theorem comment_break (cs ds : List Char) :
    comment (cs ++ '\n' :: ds) = splitBreak cs ds (comment cs) := by
  cases cs with
  | nil => rfl
  | cons c rest =>
      simp only [List.cons_append, comment]
      split
      · rw [gap_break rest ds]
        exact (splitBreak_prepend [c] rest ds (gap rest)).symm
      · rw [comment_break rest ds]
        exact (splitBreak_prepend [c] rest ds (comment rest)).symm
termination_by cs.length

end

/-- A text that can be cut is cut in the same way in front of a line break, and what follows is cut
from there on. -/
theorem tokensFrom_break {position place : Position} {cs : List Char} {tokens : List Token}
    (h : tokensFrom position cs = .ok (tokens ++ [Token.endAt place])) (ds : List Char) :
    tokensFrom position (cs ++ '\n' :: ds) =
      (tokensFrom ((position.after cs).step '\n') ds).map (tokens ++ ·) := by
  generalize hall : tokens ++ [Token.endAt place] = all at h
  fun_induction tokensFrom position cs generalizing tokens place all with
  | case1 position cs start =>
      rename_i hrest
      cases h
      obtain rfl : tokens = [] := by simpa using congrArg List.length hall
      have hgap : gap (cs ++ '\n' :: ds) = prepend (cs ++ ['\n']) (gap ds) := by
        rw [gap_break, splitBreak, if_pos hrest]
      have hfrom : tokensFrom position (cs ++ '\n' :: ds) =
          tokensFrom ((position.after cs).step '\n') ds := by
        rw [tokensFrom_eq, hgap, tokensFrom_eq, prepend, Position.after_append,
          Position.after_append]
        rfl
      rw [hfrom]
      cases tokensFrom ((position.after cs).step '\n') ds <;> rfl
  | case2 => cases h
  | case3 => cases h
  | case4 position cs start c rest hrest p hpiece others hothers =>
      rename_i ih
      cases h
      obtain ⟨front, rfl, -⟩ := tokensFrom_eq_ok hothers
      obtain ⟨rfl, -⟩ := List.append_inj' (hall.trans (List.cons_append).symm) rfl
      have hplace : (start.after p.raw).after p.rest = position.after cs := by
        obtain ⟨tail, hraw, htail⟩ := piece_append hpiece
        rw [← Position.after_append, ← Position.after_append, hraw, List.cons_append, htail,
          ← hrest, gap_append]
      have htail := ih _ rfl hothers
      rw [hplace] at htail
      rw [tokensFrom_eq, gap_break, splitBreak, if_neg (by simp [hrest])]
      simp only [hrest, List.cons_append, tokensAt, piece_break ds hpiece, start] at htail ⊢
      rw [htail]
      cases tokensFrom ((position.after cs).step '\n') ds <;> rfl

/-- Behind a text that can be cut and a line break, a text is cut as it is alone: the same tokens or
the same fault, below the lines of the first text. -/
theorem tokenize_lines {first : String} {tokens : List Token} (h : Tokenizes first tokens)
    (second : String) :
    let lines := first.toList.count '\n' + 1
    let joined := first ++ "\n" ++ second
    ((∃ all, tokenize joined = .ok all) ↔ ∃ all, tokenize second = .ok all) ∧
      (∀ all, tokenize second = .ok all →
        tokenize joined = .ok (tokens ++ all.map (Token.lowered lines))) ∧
      ∀ fault, tokenize second = .error fault → tokenize joined = .error (fault.lowered lines) := by
  intro lines joined
  obtain ⟨place, hfirst⟩ := h
  have hjoined : tokenize joined = (lowered lines (tokenize second)).map (tokens ++ ·) := by
    have htext : joined.toList = first.toList ++ '\n' :: second.toList := by
      simp [joined]
    rw [tokenize, htext, tokensFrom_break hfirst, Position.step_break, tokensFrom_lowered]
    rfl
  rw [hjoined]
  cases tokenize second with
  | ok all => simp [lowered, Except.map]
  | error fault => simp [lowered, Except.map]

/-- A comment is left open in front of the join, and an equals sign begins the text behind it. -/
theorem tokenize_lines_comment :
    let tokens : List Token := [⟨.identifier, "a", ⟨1, 1⟩⟩, ⟨.number, "1", ⟨2, 1⟩⟩,
      ⟨.symbol .dot, ".", ⟨2, 2⟩⟩, ⟨.symbol .less, "<", ⟨2, 4⟩⟩]
    Tokenizes "a\n1. < // b" tokens ∧
      tokenize ("a\n1. < // b" ++ "\n" ++ "= 'c'") = .ok (tokens ++
        [⟨.symbol .assign, "=", ⟨3, 1⟩⟩, ⟨.string, "c", ⟨3, 3⟩⟩, Token.endAt ⟨3, 6⟩]) ∧
      tokenize ("a\n1. < // b" ++ "\n" ++ "= 'c") = .error ⟨.unterminated, ⟨3, 3⟩⟩ := by
  intro tokens
  have hfirst : Tokenizes "a\n1. < // b" tokens := ⟨⟨2, 10⟩, by cbv⟩
  have hsecond : tokenize "= 'c'" = .ok [⟨.symbol .assign, "=", ⟨1, 1⟩⟩, ⟨.string, "c", ⟨1, 3⟩⟩,
      Token.endAt ⟨1, 6⟩] := by
    cbv
  have hopen : tokenize "= 'c" = .error ⟨.unterminated, ⟨1, 3⟩⟩ := by
    cbv
  exact ⟨hfirst, (tokenize_lines hfirst "= 'c'").2.1 _ hsecond,
    (tokenize_lines hfirst "= 'c").2.2 _ hopen⟩

end Lexer

end ToolScript
