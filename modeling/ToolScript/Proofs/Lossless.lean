import Mathlib
import ToolScript.Proofs.Cutting
import ToolScript.Proofs.Locating.Tokens

/-!
# Nothing is lost between text and tokens

A text that is cut into tokens is the gaps and the pieces one behind the other. Each gap is
blanks and comments, each piece alone is cut into one token of the same kind and lexeme, and
no piece could have been longer. The position of a token counts the line breaks in front of
its piece and the characters behind the last of them, so the positions of the tokens increase.
-/

namespace ToolScript

namespace Position

/-- The position behind a text at the start of a source: one more than the number of line
breaks, and one more than the number of characters behind the last of them. -/
def behind (cs : List Char) : Position :=
  ⟨cs.count '\n' + 1, (cs.reverse.takeWhile (· ≠ '\n')).length + 1⟩

/-- The position stands in front of the other one. -/
def Before (p q : Position) : Prop :=
  p.line < q.line ∨ p.line = q.line ∧ p.column < q.column

theorem after_start (cs : List Char) : start.after cs = behind cs := by
  obtain ⟨front, cur, rfl, hfront, hcur⟩ := Text.exists_endsLine cs
  have hbreak : ∀ c ∈ front.reverse.head?, decide (c ≠ '\n') = false := by
    intro c hc
    rw [List.head?_reverse] at hc
    rcases hfront with rfl | hlast
    · cases hc
    · rw [hlast] at hc
      cases hc
      decide
  have hcurrent : ∀ c ∈ cur.reverse, decide (c ≠ '\n') = true := by
    intro c hc
    exact decide_eq_true fun heq => hcur (heq ▸ List.mem_reverse.1 hc)
  have htake := (Text.span_append hcurrent front.reverse hbreak).1
  rw [after_append, after_of_endsLine hfront, after_of_not_mem hcur, behind, List.reverse_append,
    htake, List.length_reverse, List.count_append, List.count_eq_zero.2 hcur, Nat.add_zero,
    Nat.add_comm 1]

theorem Before.trans {p q r : Position} (h : p.Before q) (h' : q.Before r) : p.Before r := by
  unfold Before at *
  omega

theorem before_step (p : Position) (c : Char) : p.Before (p.step c) := by
  unfold step
  split
  · exact .inl (Nat.lt_succ_self _)
  · exact .inr ⟨rfl, Nat.lt_succ_self _⟩

/-- Reading moves the position on. -/
theorem before_after (p : Position) (c : Char) (cs : List Char) : p.Before (p.after (c :: cs)) := by
  induction cs generalizing p c with
  | nil => exact p.before_step c
  | cons d rest ih => exact (p.before_step c).trans (ih (p.step c) d)

end Position

namespace Text.Quoted

theorem read_letter {mark letter value : Char} (hmark : '\\' ≠ mark) (hletter : letter ≠ 'u')
    (hvalue : escapes.lookup letter = some value) (cs : List Char) :
    read mark ('\\' :: letter :: cs) = extend ['\\', letter] value (read mark cs) := by
  rw [read.eq_def]
  simp only [hmark, if_false, if_true]
  split
  · next heq => cases heq
  · next heq => exact absurd (List.cons.inj heq).1 hletter
  · next heq => exact absurd (List.cons.inj heq).1 hletter
  · next heq =>
      obtain ⟨rfl, rfl⟩ := List.cons.inj heq
      rw [hvalue]

/-- What was read as a literal is read again in front of any other rest. -/
theorem read_raw {mark : Char} {cs : List Char} {lit : Literal} (h : read mark cs = .ok lit)
    (rest : List Char) : read mark (lit.raw ++ rest) = .ok { lit with rest := rest } := by
  fun_induction read mark cs generalizing lit with
  | case1 | case3 | case4 | case5 | case7 | case8 => cases h
  | case2 =>
      cases h
      rw [List.singleton_append, read.eq_def]
      simp
  | case6 h₁ h₂ h₃ h₄ cs code hcode value hvalue hmark ih =>
      obtain ⟨inner, hinner, rfl⟩ := extend_eq_ok_iff.1 h
      rw [Literal.behind, List.append_assoc, List.cons_append, read.eq_def]
      simp [hmark, hcode, hvalue, ih hinner, extend, Literal.behind]
  | case9 letter cs hlong hshort value hvalue hmark ih =>
      obtain ⟨inner, hinner, rfl⟩ := extend_eq_ok_iff.1 h
      simp only [Literal.behind, List.cons_append, List.nil_append]
      rw [read_letter hmark hshort hvalue, ih hinner]
      rfl
  | case10 c cs hmark hbackslash ih =>
      obtain ⟨inner, hinner, rfl⟩ := extend_eq_ok_iff.1 h
      rw [Literal.behind, List.append_assoc, List.cons_append, read.eq_def]
      simp [hmark, hbackslash, ih hinner, extend, Literal.behind]

end Text.Quoted

namespace Lexer

/-- Blanks and comments. A comment goes up to a line break; only where the text `ends` behind
the gap can the last one do without. -/
inductive Gap : (ends : Bool) → List Char → Prop
  | none {ends : Bool} : Gap ends []
  | blank {ends : Bool} {c : Char} {cs : List Char} (h : Text.isBlank c = true)
      (rest : Gap ends cs) : Gap ends (c :: cs)
  | comment {ends : Bool} {body cs : List Char} (h : '\n' ∉ body) (rest : Gap ends cs) :
      Gap ends ('/' :: '/' :: (body ++ '\n' :: cs))
  | lastComment {body : List Char} (h : '\n' ∉ body) : Gap true ('/' :: '/' :: body)

mutual

theorem gap_isGap (cs : List Char) {ends : Bool} (h : (gap cs).2 = [] → ends = true) :
    Gap ends (gap cs).1 := by
  unfold gap at h ⊢
  split
  · exact .none
  · next rest =>
      exact comment_isGap rest h [] List.not_mem_nil
  · next c rest hslash =>
      simp only at h
      split at h
      · next hblank =>
          rw [if_pos hblank]
          exact .blank hblank (gap_isGap rest h)
      · next hblank =>
          rw [if_neg hblank]
          exact .none
termination_by cs.length

/-- `body` is what has been read of the comment. -/
theorem comment_isGap (cs : List Char) {ends : Bool} (h : (comment cs).2 = [] → ends = true)
    (body : List Char) (hbody : '\n' ∉ body) :
    Gap ends ('/' :: '/' :: (body ++ (comment cs).1)) := by
  cases cs with
  | nil =>
      obtain rfl := h rfl
      simp only [comment, List.append_nil]
      exact .lastComment hbody
  | cons c rest =>
      unfold comment at h ⊢
      split at h
      · next hbreak =>
          rw [if_pos hbreak, hbreak]
          exact .comment hbody (gap_isGap rest h)
      · next hbreak =>
          rw [if_neg hbreak]
          have hlonger : '\n' ∉ body ++ [c] := by
            simp [hbody, Ne.symm hbreak]
          have hrest := comment_isGap rest h (body ++ [c]) hlonger
          rwa [List.append_assoc] at hrest
termination_by cs.length

end

theorem name_alone (c : Char) (cs : List Char) :
    name c (cs.takeWhile isNamePart) = { name c cs with rest := [] } := by
  obtain ⟨htake, hdrop⟩ := Text.span_append
    (List.all_eq_true.1 (cs.all_takeWhile (p := isNamePart))) [] (by simp)
  rw [List.append_nil] at htake hdrop
  simp only [name, Piece.plain, htake, hdrop]

theorem number_alone {c : Char} (hc : c.isDigit = true) (cs : List Char) :
    ∃ tail, (number c cs).raw = c :: tail ∧
      number c tail = { number c cs with rest := [] } := by
  obtain ⟨d, tail, htext, -, hnumber⟩ := number_of_plain (plain_number hc cs)
  obtain ⟨rfl, rfl⟩ := List.cons.inj htext
  have h := hnumber [] apart_nil
  rw [List.append_nil] at h
  exact ⟨_, rfl, h⟩

theorem string_alone {mark : Char} {cs : List Char} {p : Piece} (h : string mark cs = .ok p) :
    ∃ tail, p.raw = mark :: tail ∧ string mark tail = .ok { p with rest := [] } := by
  unfold string at h
  split at h
  · next lit hlit =>
      cases h
      have halone := Text.Quoted.read_raw hlit []
      rw [List.append_nil] at halone
      exact ⟨lit.raw, rfl, by rw [string, halone]⟩
  · cases h
  · cases h

theorem single_alone {c : Char} {cs : List Char} {p : Piece} (h : single c cs = .ok p) :
    p.raw = [c] ∧ single c [] = .ok { p with rest := [] } := by
  unfold single at h ⊢
  split at h
  · next sign hsign =>
      cases h
      exact ⟨rfl, rfl⟩
  · cases h

theorem symbol_alone {c : Char} {cs : List Char} {p : Piece} (h : symbol c cs = .ok p) :
    ∃ tail, p.raw = c :: tail ∧ symbol c tail = .ok { p with rest := [] } := by
  unfold symbol at h
  split at h
  · split at h
    · next sign hsign =>
        cases h
        exact ⟨['='], rfl, by simp only [symbol, hsign, Piece.plain]⟩
    · obtain ⟨hraw, hsingle⟩ := single_alone h
      exact ⟨[], hraw, hsingle⟩
  · obtain ⟨hraw, hsingle⟩ := single_alone h
    exact ⟨[], hraw, hsingle⟩

/-- The text of a piece alone is that piece. -/
theorem piece_alone {c : Char} {cs : List Char} {p : Piece} (h : piece c cs = .ok p) :
    ∃ tail, p.raw = c :: tail ∧ piece c tail = .ok { p with rest := [] } := by
  unfold piece at h
  split at h
  · next hname =>
      cases h
      refine ⟨cs.takeWhile isNamePart, rfl, ?_⟩
      rw [piece, if_pos hname, name_alone]
  split at h
  · next hname hdigit =>
      cases h
      obtain ⟨tail, hraw, htail⟩ := number_alone hdigit cs
      refine ⟨tail, hraw, ?_⟩
      rw [piece, if_neg hname, if_pos hdigit, htail]
  split at h
  · next hname hdigit hmark =>
      obtain ⟨tail, hraw, htail⟩ := string_alone h
      refine ⟨tail, hraw, ?_⟩
      rw [piece, if_neg hname, if_neg hdigit, if_pos hmark, htail]
  · next hname hdigit hmark =>
      obtain ⟨tail, hraw, htail⟩ := symbol_alone h
      refine ⟨tail, hraw, ?_⟩
      rw [piece, if_neg hname, if_neg hdigit, if_neg hmark, htail]

theorem piece_lexeme {c : Char} {cs : List Char} {p : Piece} (h : piece c cs = .ok p)
    (hkind : p.kind ≠ .string) : p.lexeme = p.raw := by
  unfold piece at h
  split at h
  · cases h
    rfl
  split at h
  · cases h
    rfl
  split at h
  · unfold string at h
    split at h <;> cases h
    exact absurd rfl hkind
  · unfold symbol single at h
    repeat' split at h
    all_goals cases h
    all_goals rfl

/-- A piece that is the whole text does not begin a comment. -/
theorem piece_not_comment {c : Char} {cs : List Char} {p : Piece} (h : piece c cs = .ok p)
    (hrest : p.rest = []) (ds : List Char) : c :: cs ≠ '/' :: '/' :: ds := by
  intro heq
  obtain ⟨rfl, rfl⟩ := List.cons.inj heq
  have hslash : piece '/' ('/' :: ds) = .ok (.plain (.symbol .slash) ['/'] ('/' :: ds)) := rfl
  rw [hslash] at h
  cases h
  cases hrest

theorem tokenizes_piece {c : Char} {cs : List Char} {p : Piece} (hblank : Text.isBlank c = false)
    (h : piece c cs = .ok p) (hrest : p.rest = []) :
    Tokenizes (String.ofList (c :: cs)) [⟨p.kind, String.ofList p.lexeme, .start⟩] := by
  have hend := tokensFrom_eq (Position.start.after p.raw) []
  rw [← hrest] at hend
  refine ⟨Position.start.after p.raw, ?_⟩
  rw [tokenize, String.toList_ofList]
  refine tokensFrom_piece hblank (piece_not_comment h hrest) h (hend.trans ?_)
  rw [hrest]
  rfl

theorem length_takeWhile_append {p : Char → Bool} {cs : List Char} (h : cs.dropWhile p = [])
    (ds : List Char) : cs.length ≤ ((cs ++ ds).takeWhile p).length := by
  have hall : ∀ c ∈ cs, p c = true := by
    rw [← cs.takeWhile_append_dropWhile (p := p), h, List.append_nil]
    exact List.all_eq_true.1 List.all_takeWhile
  rw [List.takeWhile_append_of_pos hall, List.length_append]
  exact Nat.le_add_right _ _

theorem name_longest {c : Char} {cs : List Char} (h : (name c cs).rest = []) (ds : List Char) :
    cs.length < (name c (cs ++ ds)).raw.length :=
  Nat.lt_succ_of_le (length_takeWhile_append h ds)

theorem number_longest {c : Char} {cs : List Char} (h : (number c cs).rest = [])
    (ds : List Char) : cs.length < (number c (cs ++ ds)).raw.length := by
  have hcs := cs.takeWhile_append_dropWhile (p := Char.isDigit)
  change (fraction (cs.dropWhile Char.isDigit)).2 = [] at h
  unfold fraction at h
  split at h
  · next d rest heq =>
      split at h
      · next hd =>
          -- the digits in front of the point stay the same, those behind it can grow
          have hdigits := length_takeWhile_append h ds
          have hlength : cs.length = (cs.takeWhile Char.isDigit).length + (rest.length + 2) := by
            have hsplit := congrArg List.length hcs
            rw [heq, List.length_append] at hsplit
            exact hsplit.symm
          have hlonger : cs ++ ds = cs.takeWhile Char.isDigit ++ '.' :: d :: (rest ++ ds) :=
            calc cs ++ ds = (cs.takeWhile Char.isDigit ++ '.' :: d :: rest) ++ ds := by
                  rw [← heq, hcs]
              _ = cs.takeWhile Char.isDigit ++ '.' :: d :: (rest ++ ds) := by simp
          obtain ⟨htake, hdrop⟩ := Text.span_append
            (List.all_eq_true.1 (cs.all_takeWhile (p := Char.isDigit)))
            ('.' :: d :: (rest ++ ds)) (by simp)
          simp only [number, Piece.plain, hlonger, htake, hdrop, fraction, hd, if_true,
            List.length_cons, List.length_append]
          omega
      · cases h
  · simp only [number, Piece.plain, List.length_cons, List.length_append]
    have hdigits := length_takeWhile_append h ds
    omega

theorem string_longest {mark : Char} {cs : List Char} {p : Piece} (h : string mark cs = .ok p)
    (hrest : p.rest = []) (ds : List Char) :
    string mark (cs ++ ds) = .ok { p with rest := ds } := by
  unfold string at h
  split at h
  · next lit hlit =>
      cases h
      have hraw := Text.Quoted.raw_append_rest hlit
      rw [show lit.rest = [] from hrest, List.append_nil] at hraw
      rw [string, ← hraw, Text.Quoted.read_raw hlit ds]
  · cases h
  · cases h

theorem symbol_longest {c : Char} {cs : List Char} {p : Piece} (h : symbol c cs = .ok p)
    (hrest : p.rest = []) {ds : List Char} {q : Piece} (h' : symbol c (cs ++ ds) = .ok q) :
    cs.length < q.raw.length := by
  obtain ⟨tail, hraw, hcs⟩ := symbol_append h
  rw [hrest, List.append_nil] at hcs
  subst hcs
  unfold symbol at h
  split at h
  · next rest =>
    split at h
    · next sign hsign =>
        cases h
        obtain rfl : rest = [] := hrest
        simp only [symbol, List.cons_append, hsign] at h'
        cases h'
        exact Nat.lt_succ_self 1
    · have hnil := hraw.symm.trans (single_alone h).1
      exact absurd (List.cons.inj hnil).2 (by simp)
  · have hnil := hraw.symm.trans (single_alone h).1
    obtain ⟨tail', hraw', -⟩ := symbol_append h'
    rw [(List.cons.inj hnil).2, hraw']
    exact Nat.zero_lt_succ _

/-- More text behind a piece never makes the piece shorter. -/
theorem piece_longest {c : Char} {cs ds : List Char} {p q : Piece} (h : piece c cs = .ok p)
    (hrest : p.rest = []) (h' : piece c (cs ++ ds) = .ok q) : cs.length < q.raw.length := by
  unfold piece at h h'
  split at h
  · next hname =>
      rw [if_pos hname] at h'
      cases h
      cases h'
      exact name_longest hrest ds
  next hname =>
  rw [if_neg hname] at h'
  split at h
  · next hdigit =>
      rw [if_pos hdigit] at h'
      cases h
      cases h'
      exact number_longest hrest ds
  next hdigit =>
  rw [if_neg hdigit] at h'
  split at h
  · next hmark =>
      rw [if_pos hmark, string_longest h hrest ds] at h'
      cases h'
      obtain ⟨tail, hraw, hcs⟩ := string_append h
      rw [hrest, List.append_nil] at hcs
      rw [← hcs]
      exact hraw ▸ Nat.lt_succ_self _
  · next hmark =>
      rw [if_neg hmark] at h'
      exact symbol_longest h hrest h'

/-- A token with the gap in front of it and its own text. -/
structure Cut where
  gap : List Char
  raw : List Char
  token : Token

/-- The part of the source that a cut takes up. -/
def Cut.text (cut : Cut) : List Char :=
  cut.gap ++ cut.raw

/-- The text is one piece and nothing else. -/
def Whole (raw : List Char) : Prop :=
  ∃ c cs p, raw = c :: cs ∧ piece c cs = .ok p ∧ p.rest = []

/-- The cut is made as it should be in front of the text `following`: its gap is one, its text
alone is cut into its token, and no longer text would have been a piece. -/
structure Cut.Fits (cut : Cut) (following : List Char) : Prop where
  gap : Gap false cut.gap
  alone : Tokenizes (String.ofList cut.raw) [{ cut.token with position := .start }]
  lexeme : cut.token.kind ≠ .string → cut.token.lexeme = String.ofList cut.raw
  longest : ∀ more, more ≠ [] → more <+: following → ¬ Whole (cut.raw ++ more)

theorem fits_piece {front rest : List Char} {c : Char} {p : Piece} (hfront : Gap false front)
    (hblank : Text.isBlank c = false) (h : piece c rest = .ok p) (place : Position) :
    Cut.Fits ⟨front, p.raw, ⟨p.kind, String.ofList p.lexeme, place⟩⟩ p.rest where
  gap := hfront
  alone := by
    obtain ⟨tail, hraw, htail⟩ := piece_alone h
    rw [hraw]
    exact tokenizes_piece (p := { p with rest := [] }) hblank htail rfl
  lexeme hkind := congrArg String.ofList (piece_lexeme h hkind)
  longest := by
    rintro more hmore ⟨later, hlater⟩ ⟨d, ds, q, heq, hq, hrest⟩
    obtain ⟨tail, hraw, htail⟩ := piece_append h
    rw [hraw, List.cons_append] at heq
    obtain ⟨rfl, rfl⟩ := List.cons.inj heq
    rw [← htail, ← hlater, ← List.append_assoc] at h
    have hlength := piece_longest hq hrest h
    have hpos := List.length_pos_iff.2 hmore
    rw [hraw, List.length_append, List.length_cons] at hlength
    omega

/-- The tokens of a text come from cuts that make up the text, up to a last gap. -/
theorem tokensFrom_cuts {position : Position} {cs : List Char} {all : List Token}
    (h : tokensFrom position cs = .ok all) :
    ∃ cuts tail, all = cuts.map Cut.token ++ [Token.endAt (position.after cs)] ∧
      cs = cuts.flatMap Cut.text ++ tail ∧ Gap true tail ∧
      ∀ pre cut post, cuts = pre ++ cut :: post →
        cut.Fits (post.flatMap Cut.text ++ tail) ∧
        cut.token.position = position.after (pre.flatMap Cut.text ++ cut.gap) := by
  fun_induction tokensFrom position cs generalizing all with
  | case1 position cs start =>
      rename_i hrest
      cases h
      have hcs := gap_append cs
      rw [hrest, List.append_nil] at hcs
      have hgap := gap_isGap cs fun _ => rfl
      rw [hcs] at hgap
      exact ⟨[], cs, by simp [start, hcs], rfl, hgap, by simp⟩
  | case2 => cases h
  | case3 => cases h
  | case4 position cs start c rest hrest p hpiece tokens htokens =>
      rename_i ih
      cases h
      obtain ⟨cuts, tail, rfl, htail, hlast, hcuts⟩ := ih htokens
      obtain ⟨raw, hraw, hrawrest⟩ := piece_append hpiece
      have hcs : cs = ((gap cs).1 ++ p.raw) ++ p.rest := by
        rw [hraw, List.append_assoc, List.cons_append, hrawrest, ← hrest, gap_append]
      have hplace (ds : List Char) :
          (start.after p.raw).after ds = position.after (((gap cs).1 ++ p.raw) ++ ds) := by
        rw [Position.after_append, Position.after_append]
      have hfront : Gap false (gap cs).1 := gap_isGap cs fun hnil => by simp [hrest] at hnil
      refine ⟨⟨(gap cs).1, p.raw, ⟨p.kind, String.ofList p.lexeme, start⟩⟩ :: cuts, tail,
        ?_, ?_, hlast, fun pre cut post heq => ?_⟩
      · rw [hplace, ← hcs]
        rfl
      · rw [List.flatMap_cons, List.append_assoc, ← htail]
        exact hcs
      · cases pre with
        | nil =>
            obtain ⟨rfl, rfl⟩ := List.cons.inj heq
            rw [← htail]
            exact ⟨fits_piece hfront (not_blank_gap cs c (by simp [hrest])) hpiece start, rfl⟩
        | cons first pre =>
            obtain ⟨rfl, rfl⟩ := List.cons.inj heq
            obtain ⟨hfits, hposition⟩ := hcuts pre cut post rfl
            refine ⟨hfits, hposition.trans ((hplace _).trans ?_)⟩
            rw [List.flatMap_cons, List.append_assoc _ (pre.flatMap Cut.text)]
            rfl

theorem tokensFrom_increasing {position : Position} {cs : List Char} {all : List Token}
    (h : tokensFrom position cs = .ok all) :
    all.Pairwise fun s t => s.position.Before t.position := by
  fun_induction tokensFrom position cs generalizing all with
  | case1 =>
      cases h
      exact List.pairwise_singleton _ _
  | case2 => cases h
  | case3 => cases h
  | case4 position cs start c rest hrest p hpiece tokens htokens =>
      rename_i ih
      cases h
      refine List.pairwise_cons.2 ⟨fun token htoken => ?_, ih htokens⟩
      -- every later token stands behind the text of this one, which is not empty
      obtain ⟨raw, hraw, -⟩ := piece_append hpiece
      obtain ⟨others, rfl, hothers⟩ := tokensFrom_eq_ok htokens
      have hbehind (ds : List Char) : start.Before ((start.after p.raw).after ds) := by
        rw [← Position.after_append, hraw]
        exact start.before_after c (raw ++ ds)
      rcases List.mem_append.1 htoken with htoken | htoken
      · obtain ⟨pre, _, _, _, -, -, -, rfl⟩ := hothers token htoken
        exact hbehind pre
      · obtain rfl := List.mem_singleton.1 htoken
        exact hbehind p.rest

/-- A text that can be cut into tokens is its gaps and pieces in order, each piece alone is its
token and as long as it can be, and each position is the number of line breaks in front and of
characters behind the last of them. Positions increase and stay within the length of the text. -/
theorem tokenize_lossless {source : String} {all : List Token} (h : tokenize source = .ok all) :
    ∃ (cuts : List Cut) (tail : List Char),
      all = cuts.map Cut.token ++ [Token.endAt (.behind source.toList)] ∧
      source.toList = cuts.flatMap Cut.text ++ tail ∧ Gap true tail ∧
      (∀ pre cut post, cuts = pre ++ cut :: post →
        cut.Fits (post.flatMap Cut.text ++ tail) ∧
        cut.token.position = .behind (pre.flatMap Cut.text ++ cut.gap)) ∧
      (all.Pairwise fun s t => s.position.Before t.position) ∧
      ∀ token ∈ all,
        token.position.line ≤ source.length + 1 ∧ token.position.column ≤ source.length + 1 := by
  obtain ⟨cuts, tail, htokens, hsource, hlast, hcuts⟩ := tokensFrom_cuts h
  simp only [Position.after_start] at htokens hcuts
  refine ⟨cuts, tail, htokens, hsource, hlast, hcuts, tokensFrom_increasing h, ?_⟩
  intro token htoken
  obtain ⟨pre, post, hsplit, hplace, -⟩ := (tokenize_marks h).2 token htoken
  have hbound := Position.after_le pre
  have hlength : source.length = pre.length + post.length := by
    rw [← String.length_toList, hsplit, List.length_append]
  rw [← hplace] at hbound
  omega

/-- A comment behind a name, a point behind a number, an escape in a string, and a comment
that is left open. -/
theorem tokenize_lossless_comment :
    let tokens : List Token := [⟨.identifier, "a", ⟨1, 1⟩⟩, ⟨.number, "1", ⟨2, 1⟩⟩,
      ⟨.symbol .dot, ".", ⟨2, 2⟩⟩, ⟨.identifier, "x", ⟨2, 3⟩⟩, ⟨.string, "c\n", ⟨2, 5⟩⟩]
    tokenize "a // b\n1.x 'c\\n' //" = .ok (tokens ++ [Token.endAt ⟨2, 13⟩]) ∧
      ∃ (cuts : List Cut) (tail : List Char), cuts.map Cut.token = tokens ∧
        "a // b\n1.x 'c\\n' //".toList = cuts.flatMap Cut.text ++ tail ∧ Gap true tail := by
  have htokens : tokenize "a // b\n1.x 'c\\n' //" = .ok ([⟨.identifier, "a", ⟨1, 1⟩⟩,
      ⟨.number, "1", ⟨2, 1⟩⟩, ⟨.symbol .dot, ".", ⟨2, 2⟩⟩, ⟨.identifier, "x", ⟨2, 3⟩⟩,
      ⟨.string, "c\n", ⟨2, 5⟩⟩] ++ [Token.endAt ⟨2, 13⟩]) := by
    cbv
  obtain ⟨cuts, tail, hcuts, hsource, hlast, -⟩ := tokenize_lossless htokens
  exact ⟨htokens, cuts, tail, (List.append_inj' hcuts rfl).1.symm, hsource, hlast⟩

end Lexer

end ToolScript
