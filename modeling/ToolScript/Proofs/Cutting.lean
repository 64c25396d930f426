import ToolScript.Proofs.Lexing

/-!
# Texts put together from pieces

`Cuts P cs Q` says that in front of any rest as in `P` the text `cs` is cut into tokens as in
`Q`, and the rest is cut on its own. Blanks, names, numbers, string literals and symbols are
cut so, and texts one behind the other are cut one after the other.
-/

namespace ToolScript

namespace Text.Quoted

theorem hexValue_hexDigit : ∀ d < 16, hexValue? (hexDigit d) = some d := by
  decide

theorem code_hexDigits {n : Nat} (h : n < 65536) :
    code? (hexDigit (n / 4096 % 16)) (hexDigit (n / 256 % 16)) (hexDigit (n / 16 % 16))
      (hexDigit (n % 16)) = some n := by
  have hdigit (m : Nat) := hexValue_hexDigit (m % 16) (Nat.mod_lt m (by decide))
  simp only [code?, hdigit]
  change some _ = some n
  congr 1
  omega

theorem charOfCode_toNat (c : Char) : charOfCode? c.toNat = some c := by
  have hvalid : c.toNat.isValidChar := c.valid
  rw [charOfCode?, if_pos hvalid, Char.ofNat_toNat]

/-- A character that was spelled is read. -/
theorem read_spell (c : Char) (cs : List Char) :
    read '"' (spell c ++ cs) = extend (spell c) c (read '"' cs) := by
  unfold spell
  split
  · next h => subst h; rfl
  split
  · next h => subst h; rfl
  split
  · next h => subst h; rfl
  split
  · next h => subst h; rfl
  split
  · next h => subst h; rfl
  split
  · next h => subst h; rfl
  split
  · next h =>
      have hlt : c.toNat < 65536 := by
        simp only [isControl, Bool.or_eq_true, Bool.and_eq_true, decide_eq_true_eq] at h
        omega
      simp only [hexDigits4, List.cons_append, List.nil_append]
      rw [read]
      simp [code_hexDigits hlt, charOfCode_toNat]
  · next hquote hbackslash _ _ _ _ _ =>
      simp only [List.cons_append, List.nil_append]
      rw [read.eq_def]
      simp [hquote, hbackslash]

theorem read_spelled (value rest : List Char) :
    read '"' (value.flatMap spell ++ '"' :: rest) =
      .ok ⟨value, value.flatMap spell ++ ['"'], rest⟩ := by
  induction value with
  | nil =>
      rw [List.flatMap_nil, List.nil_append, read.eq_def]
      simp
  | cons c cs ih =>
      rw [List.flatMap_cons, List.append_assoc, read_spell, ih]
      simp [extend, Literal.behind]

end Text.Quoted

namespace Lexer

/-- The tokens of a text that does not begin with a gap. -/
def tokensAt (start : Position) : List Char → Except Fault (List Token)
  | [] => .ok [Token.endAt start]
  | c :: rest =>
      match piece c rest with
      | .error stop => .error ⟨stop.flaw, start.after stop.read⟩
      | .ok p =>
          match tokensFrom (start.after p.raw) p.rest with
          | .error fault => .error fault
          | .ok tokens => .ok (⟨p.kind, String.ofList p.lexeme, start⟩ :: tokens)

theorem tokensFrom_eq (position : Position) (cs : List Char) :
    tokensFrom position cs = tokensAt (position.after (gap cs).1) (gap cs).2 := by
  rw [tokensFrom]
  split
  · next h => rw [h]; rfl
  · next c rest h =>
      rw [h]
      cases hpiece : piece c rest with
      | error stop => simp only [tokensAt, hpiece]
      | ok p =>
          cases htokens : tokensFrom ((position.after (gap cs).1).after p.raw) p.rest with
          | error fault => simp only [tokensAt, hpiece, htokens]
          | ok tokens => simp only [tokensAt, hpiece, htokens]

theorem gap_cons {c : Char} {cs : List Char} (h : ∀ ds, c :: cs ≠ '/' :: '/' :: ds) :
    gap (c :: cs) = if Text.isBlank c then prepend [c] (gap cs) else ([], c :: cs) := by
  rw [gap.eq_def]
  split
  · next heq => cases heq
  · next ds heq => exact absurd heq (h ds)
  · next heq =>
      obtain ⟨rfl, rfl⟩ := List.cons.inj heq
      rfl

theorem tokensFrom_blank {c : Char} (h : Text.isBlank c = true) (position : Position)
    (cs : List Char) : tokensFrom position (c :: cs) = tokensFrom (position.step c) cs := by
  have hslash (ds : List Char) : c :: cs ≠ '/' :: '/' :: ds := by
    intro heq
    rw [(List.cons.inj heq).1] at h
    exact absurd h (by decide)
  rw [tokensFrom_eq, tokensFrom_eq (position.step c), gap_cons hslash, if_pos h]
  rfl

theorem tokensFrom_piece {position : Position} {c : Char} {cs : List Char} {p : Piece}
    {others : List Token} (hblank : Text.isBlank c = false)
    (hslash : ∀ ds, c :: cs ≠ '/' :: '/' :: ds) (hpiece : piece c cs = .ok p)
    (h : tokensFrom (position.after p.raw) p.rest = .ok others) :
    tokensFrom position (c :: cs) =
      .ok (⟨p.kind, String.ofList p.lexeme, position⟩ :: others) := by
  rw [tokensFrom_eq, gap_cons hslash, hblank]
  simp only [Bool.false_eq_true, if_false, Position.after_nil, tokensAt, hpiece, h]

/-- In front of any rest as in `P` the text is cut into tokens as in `Q`, and the rest on its
own. -/
def Cuts (P : List Char → Prop) (cs : List Char) (Q : List Token → Prop) : Prop :=
  ∀ position rest, P rest → ∃ tokens place, Q tokens ∧ ∀ others,
    tokensFrom place rest = .ok others → tokensFrom position (cs ++ rest) = .ok (tokens ++ others)

/-- Any rest. -/
def Free (_ : List Char) : Prop := True

/-- A rest that does not go on with a name, a number or a symbol. -/
def Apart (rest : List Char) : Prop :=
  ∀ c ∈ rest.head?, isNamePart c = false ∧ c ≠ '=' ∧ c ≠ '/' ∧
    (c = '.' → ∀ d ∈ rest.tail.head?, d.isDigit = false)

theorem apart_nil : Apart [] := by
  intro c hc
  cases hc

/-- The characters that end a name, a number or a symbol whatever follows. -/
def parting (c : Char) : Bool :=
  !isNamePart c && c ≠ '=' && c ≠ '/' && c ≠ '.'

theorem apart_cons {c : Char} (h : parting c = true) (rest : List Char) : Apart (c :: rest) := by
  intro d hd
  obtain rfl : c = d := by simpa using hd
  simp only [parting, Bool.and_eq_true, Bool.not_eq_true', decide_eq_true_eq] at h
  obtain ⟨⟨⟨hpart, hequals⟩, hslash⟩, hdot⟩ := h
  exact ⟨hpart, hequals, hslash, fun heq => absurd heq hdot⟩

/-- One token of the given kind and text. -/
def One (kind : Token.Kind) (lexeme : String) (tokens : List Token) : Prop :=
  ∃ token, tokens = [token] ∧ token.kind = kind ∧ token.lexeme = lexeme

/-- Tokens as in `Q` and then tokens as in `R`. -/
def Both (Q R : List Token → Prop) (tokens : List Token) : Prop :=
  ∃ us vs, tokens = us ++ vs ∧ Q us ∧ R vs

namespace Cuts

variable {P P' : List Char → Prop} {Q R : List Token → Prop} {cs ds : List Char}

theorem imp (h : Cuts P cs Q) (hQR : ∀ tokens, Q tokens → R tokens) : Cuts P cs R := by
  intro position rest hrest
  obtain ⟨tokens, place, hQ, hcut⟩ := h position rest hrest
  exact ⟨tokens, place, hQR tokens hQ, hcut⟩

theorem nil (P : List Char → Prop) (hQ : Q []) : Cuts P [] Q :=
  fun position _ _ => ⟨[], position, hQ, fun _ h => h⟩

theorem append (h : Cuts P cs Q) (h' : Cuts P' ds R) (hP : ∀ rest, P' rest → P (ds ++ rest)) :
    Cuts P' (cs ++ ds) (Both Q R) := by
  intro position rest hrest
  obtain ⟨us, middle, hQ, hus⟩ := h position (ds ++ rest) (hP rest hrest)
  obtain ⟨vs, place, hR, hvs⟩ := h' middle rest hrest
  refine ⟨us ++ vs, place, ⟨us, vs, rfl, hQ, hR⟩, fun others hothers => ?_⟩
  rw [List.append_assoc, List.append_assoc]
  exact hus _ (hvs others hothers)

/-- A text that is cut wherever it stands, and one behind it. -/
theorem followed (h : Cuts Free cs Q) (h' : Cuts P ds R) : Cuts P (cs ++ ds) (Both Q R) :=
  h.append h' fun _ _ => trivial

/-- A text with one behind it whose first character parts them. -/
theorem parted {c : Char} (h : Cuts Apart cs Q) (h' : Cuts P (c :: ds) R)
    (hc : parting c = true) : Cuts P (cs ++ c :: ds) (Both Q R) :=
  h.append h' fun rest _ => apart_cons hc (ds ++ rest)

theorem weaken (h : Cuts Free cs Q) (P : List Char → Prop) : Cuts P cs Q :=
  fun position rest _ => h position rest trivial

/-- Blanks make no tokens. -/
theorem blank {c : Char} (hc : Text.isBlank c = true) (h : Cuts P cs Q) : Cuts P (c :: cs) Q := by
  intro position rest hrest
  obtain ⟨tokens, place, hQ, hcut⟩ := h (position.step c) rest hrest
  refine ⟨tokens, place, hQ, fun others hothers => ?_⟩
  rw [List.cons_append, tokensFrom_blank hc]
  exact hcut others hothers

theorem space (h : Cuts P cs Q) : Cuts P (' ' :: cs) Q :=
  h.blank rfl

/-- A text that is a single piece makes one token. -/
theorem piece {c : Char} {kind : Token.Kind} {lexeme : List Char}
    (hblank : Text.isBlank c = false)
    (hslash : ∀ rest, P rest → ∀ ds, c :: cs ++ rest ≠ '/' :: '/' :: ds)
    (h : ∀ rest, P rest → Lexer.piece c (cs ++ rest) = .ok ⟨kind, lexeme, c :: cs, rest⟩) :
    Cuts P (c :: cs) (One kind (String.ofList lexeme)) := by
  intro position rest hrest
  refine ⟨[⟨kind, String.ofList lexeme, position⟩], position.after (c :: cs),
    ⟨_, rfl, rfl, rfl⟩, fun others hothers => ?_⟩
  exact tokensFrom_piece hblank (hslash rest hrest) (h rest hrest) hothers

/-- A text that is cut up to its end has those tokens. -/
theorem tokenizes {source : String} (h : Cuts P source.toList Q) (hP : P []) :
    ∃ tokens, Q tokens ∧ Tokenizes source tokens := by
  obtain ⟨tokens, place, hQ, hcut⟩ := h .start [] hP
  have hend : tokensFrom place [] = .ok [Token.endAt place] := tokensFrom_eq place []
  have hsource := hcut _ hend
  rw [List.append_nil] at hsource
  exact ⟨tokens, hQ, place, hsource⟩

end Cuts

theorem isNameStart_iff_toNat {c : Char} : isNameStart c = true ↔
    65 ≤ c.toNat ∧ c.toNat ≤ 90 ∨ 97 ≤ c.toNat ∧ c.toNat ≤ 122 ∨ c.toNat = 95 := by
  have hline : c = '_' ↔ c.toNat = 95 := Char.toNat_inj.symm
  have hletter : c.isAlpha = (decide (c.val ≥ 65 ∧ c.val ≤ 90) ||
      decide (c.val ≥ 97) && decide (c.val ≤ 122)) := rfl
  simp [isNameStart, hletter, UInt32.le_iff_toNat_le, hline, or_assoc]

theorem isNamePart_iff {c : Char} :
    isNamePart c = true ↔ isNameStart c = true ∨ c.isDigit = true := by
  simp only [isNamePart, isNameStart, Char.isAlphanum, Bool.or_eq_true]
  grind

/-- A character that a name or a number can begin with begins no gap. -/
theorem not_gap_of_isNamePart {c : Char} (h : isNamePart c = true) :
    Text.isBlank c = false ∧ ∀ cs ds : List Char, c :: cs ≠ '/' :: ds := by
  rw [isNamePart_iff, isNameStart_iff_toNat, Char.isDigit_iff_toNat] at h
  simp only [Char.reduceToNat] at h
  constructor
  · simp only [Text.isBlank, Text.blankRanges, List.any_cons, List.any_nil, Bool.or_false,
      Bool.or_eq_false_iff, Bool.and_eq_false_iff, decide_eq_false_iff_not]
    omega
  · intro cs ds heq
    rw [(List.cons.inj heq).1] at h
    simp at h

/-- The text is a letter or an underscore, and then letters, digits and underscores. -/
def isWord (word : String) : Bool :=
  match word.toList with
  | [] => false
  | c :: cs => isNameStart c && cs.all isNamePart

theorem cuts_word {word : String} (h : isWord word = true) :
    Cuts Apart word.toList (One (nameKind word.toList) word) := by
  unfold isWord at h
  split at h
  · cases h
  · next c cs hword =>
      obtain ⟨hc, hcs⟩ := Bool.and_eq_true_iff.1 h
      obtain ⟨hblank, hslash⟩ := not_gap_of_isNamePart (isNamePart_iff.2 (.inl hc))
      have hlexeme : word = String.ofList (c :: cs) := by rw [← hword, String.ofList_toList]
      rw [hword, hlexeme]
      refine .piece hblank (fun rest _ ds => hslash _ _) fun rest hrest => ?_
      obtain ⟨htake, hdrop⟩ := Text.span_append (List.all_eq_true.1 hcs) rest
        fun d hd => (hrest d hd).1
      simp only [piece, hc, if_true, name, Piece.plain, htake, hdrop]

theorem cuts_keyword (word : Keyword) :
    Cuts Apart word.spelling.toList (One (.keyword word) word.spelling) := by
  have hkind : nameKind word.spelling.toList = .keyword word := by
    cases word <;> decide
  rw [← hkind]
  exact cuts_word (by cases word <;> decide)

theorem Apart.not_isDigit {rest : List Char} (h : Apart rest) :
    ∀ d ∈ rest.head?, d.isDigit = false := by
  intro d hd
  have hpart := (h d hd).1
  rw [← Bool.not_eq_true, isNamePart_iff, not_or] at hpart
  exact Bool.not_eq_true _ ▸ hpart.2

theorem fraction_of_apart {rest : List Char} (h : Apart rest) : fraction rest = ([], rest) := by
  unfold fraction
  split
  · next d ds =>
      have hd := (h '.' (by simp)).2.2.2 rfl d (by simp)
      simp [hd]
  · rfl

theorem number_of_plain {text : List Char} (h : Decimal.Plain text) :
    ∃ c cs, text = c :: cs ∧ c.isDigit = true ∧
      ∀ rest, Apart rest → number c (cs ++ rest) = .plain .number text rest := by
  cases h with
  | whole hne h =>
      obtain ⟨c, cs, rfl⟩ := List.exists_cons_of_ne_nil hne
      obtain ⟨hc, hcs⟩ := List.forall_mem_cons.1 h
      refine ⟨c, cs, rfl, hc, fun rest hrest => ?_⟩
      obtain ⟨htake, hdrop⟩ := Text.span_append hcs rest hrest.not_isDigit
      simp only [number, htake, hdrop, fraction_of_apart hrest, List.append_nil]
  | @broken cs ds hne h hds h' =>
      obtain ⟨c, cs, rfl⟩ := List.exists_cons_of_ne_nil hne
      obtain ⟨d, ds, rfl⟩ := List.exists_cons_of_ne_nil hds
      obtain ⟨hc, hcs⟩ := List.forall_mem_cons.1 h
      obtain ⟨hd, hds⟩ := List.forall_mem_cons.1 h'
      refine ⟨c, cs ++ '.' :: d :: ds, rfl, hc, fun rest hrest => ?_⟩
      obtain ⟨htake, hdrop⟩ := Text.span_append hcs ('.' :: d :: (ds ++ rest)) (by simp)
      obtain ⟨htake', hdrop'⟩ := Text.span_append hds rest hrest.not_isDigit
      simp only [number, List.append_assoc, List.cons_append, htake, hdrop, fraction, hd, if_true,
        htake', hdrop']

theorem cuts_number {text : String} (h : Decimal.Plain text.toList) :
    Cuts Apart text.toList (One .number text) := by
  obtain ⟨c, cs, htext, hc, hnumber⟩ := number_of_plain h
  obtain ⟨hblank, hslash⟩ := not_gap_of_isNamePart (isNamePart_iff.2 (.inr hc))
  have hstart : isNameStart c = false := by
    rw [Char.isDigit_iff_toNat] at hc
    simp only [Char.reduceToNat] at hc
    rw [← Bool.not_eq_true, isNameStart_iff_toNat]
    omega
  have hlexeme : text = String.ofList (c :: cs) := by rw [← htext, String.ofList_toList]
  rw [htext] at hnumber ⊢
  rw [hlexeme]
  refine .piece hblank (fun rest _ ds => hslash _ _) fun rest hrest => ?_
  simp only [piece, hstart, Bool.false_eq_true, if_false, hc, if_true, hnumber rest hrest,
    Piece.plain]

/-- A written literal is a piece, whatever follows. -/
theorem piece_write (value : String) : ∃ tail,
    (Text.Quoted.write value).toList = '"' :: tail ∧ ∀ rest, piece '"' (tail ++ rest) =
      .ok ⟨.string, value.toList, (Text.Quoted.write value).toList, rest⟩ := by
  have hwrite : (Text.Quoted.write value).toList =
      '"' :: (value.toList.flatMap Text.Quoted.spell ++ ['"']) := by
    rw [Text.Quoted.write, String.toList_ofList, List.cons_append]
  refine ⟨_, hwrite, fun rest => ?_⟩
  have hread := Text.Quoted.read_spelled value.toList rest
  change string '"' _ = _
  rw [hwrite, List.append_assoc, List.singleton_append, string, hread]

theorem cuts_string (value : String) :
    Cuts Free (Text.Quoted.write value).toList (One .string value) := by
  obtain ⟨tail, hwrite, hpiece⟩ := piece_write value
  rw [hwrite] at hpiece ⊢
  rw [← String.ofList_toList (s := value)]
  refine .piece (by decide) (fun rest _ ds heq => ?_) fun rest _ => ?_
  · exact absurd (List.cons.inj heq).1 (by decide)
  · exact hpiece rest

/-- The symbols that no character behind them can change. -/
def solid (sign : Symbol) : Bool :=
  sign ∉ [.assign, .equal, .notEqual, .greater, .greaterEqual, .less, .lessEqual, .slash]

/-- A symbol is one character, or one with an equals sign behind it. -/
theorem symbol_spelled (sign : Symbol) : ∃ c tail, sign.spelling.toList = c :: tail ∧
    Text.isBlank c = false ∧ (∀ cs, piece c cs = symbol c cs) ∧
    (tail = [] ∧ Symbol.ofChar? c = some sign ∧
        (solid sign = true → Symbol.ofCharEqual? c = none ∧ c ≠ '/') ∨
      tail = ['='] ∧ Symbol.ofCharEqual? c = some sign) := by
  cases sign with
  | equal | notEqual | greaterEqual | lessEqual =>
      exact ⟨_, _, rfl, by decide, fun _ => rfl, .inr ⟨rfl, by decide⟩⟩
  | _ => exact ⟨_, _, rfl, by decide, fun _ => rfl, .inl ⟨rfl, by decide, by decide⟩⟩

theorem symbol_eq_single {c : Char} {cs : List Char}
    (h : ∀ ds, cs = '=' :: ds → Symbol.ofCharEqual? c = none) : symbol c cs = single c cs := by
  unfold symbol
  split
  · next ds => rw [h ds rfl]
  · rfl

theorem cuts_sign {P : List Char → Prop} {sign : Symbol}
    (hP : ∀ rest, P rest → solid sign = true ∨ ∀ d ∈ rest.head?, d ≠ '=' ∧ d ≠ '/') :
    Cuts P sign.spelling.toList (One (.symbol sign) sign.spelling) := by
  obtain ⟨c, tail, hspelling, hblank, hpiece, hshape⟩ := symbol_spelled sign
  have hlexeme : sign.spelling = String.ofList (c :: tail) := by
    rw [← hspelling, String.ofList_toList]
  rw [hspelling, hlexeme]
  rcases hshape with ⟨rfl, hsign, hsolid⟩ | ⟨rfl, hsign⟩
  · refine .piece hblank (fun rest hrest ds heq => ?_) fun rest hrest => ?_
    · obtain ⟨hc, heq⟩ := List.cons.inj heq
      rcases hP rest hrest with h | h
      · exact (hsolid h).2 hc
      · have heq : rest = '/' :: ds := heq
        exact (h '/' (by simp [heq])).2 rfl
    · have hsingle : symbol c rest = single c rest := by
        refine symbol_eq_single fun ds heq => ?_
        rcases hP rest hrest with h | h
        · exact (hsolid h).1
        · exact absurd rfl (h '=' (by simp [heq])).1
      rw [List.nil_append, hpiece, hsingle, single, hsign]
      rfl
  · refine .piece hblank (fun rest _ ds heq => ?_) fun rest _ => ?_
    · have hslash := (List.cons.inj (List.cons.inj heq).2).1
      exact absurd hslash (by decide)
    · rw [List.singleton_append, hpiece, symbol, hsign]
      rfl

/-- A symbol is cut in front of a blank and the like. -/
theorem cuts_symbol (sign : Symbol) :
    Cuts Apart sign.spelling.toList (One (.symbol sign) sign.spelling) :=
  cuts_sign fun _ hrest => .inr fun d hd => ⟨(hrest d hd).2.1, (hrest d hd).2.2.1⟩

theorem cuts_solid (sign : Symbol) (h : solid sign = true) :
    Cuts Free sign.spelling.toList (One (.symbol sign) sign.spelling) :=
  cuts_sign fun _ _ => .inl h

end Lexer

end ToolScript
