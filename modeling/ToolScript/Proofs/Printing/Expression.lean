import ToolScript.Proofs.Printing.Room

/-!
# Written expressions are read back

The text of an expression is cut into tokens that spell the same expression again, and how
much room they take is known. What the first and the last of these tokens can be is recorded
too, since that decides how statements run into each other.
-/

namespace ToolScript

open Lexer Grammar

namespace Grammar

/-- An expression with operators up to a level is one with operators up to a higher level. -/
theorem Derivation.loosen {e : Expr} {ts : List Token} {l m : Nat} (h : l ≤ m)
    (d : Derivation (.chain l e) ts) : ∃ d' : Derivation (.chain m e) ts, d'.room = d.room := by
  induction h with
  | refl => exact ⟨d, rfl⟩
  | step _ ih =>
      obtain ⟨d', hd'⟩ := ih
      exact ⟨.tighter d', hd'⟩

theorem Derivation.retoken {p : Phrase} {ts : List Token} (d : Derivation p ts)
    (us : List Token) (h : ts = us) : ∃ d' : Derivation p us, d'.room = d.room := by
  subst h
  exact ⟨d, rfl⟩

end Grammar

/-- The tokens spell the expression up to positions, in the room for its text. A first
token that opens a bracket opens the text, a tool call does not stand first, and a name that
could be called stands last only in a variable. -/
structure Reread (e : Expr) (tokens : List Token) : Prop where
  tree : ∃ e' : Expr, e'.unplaced = e.unplaced ∧
    ∃ d : Derivation (.accessed e') tokens, d.room = e.textRoom
  paren : firstKind tokens = .symbol .leftParen → e.text.toList.head? = some '('
  bracket : firstKind tokens = .symbol .leftBracket → e.text.toList.head? = some '['
  call : firstKind tokens ≠ .keyword .kwCall
  name : endsInName tokens = true → ∃ pos name, e = .ref pos name

/-- The tokens spell the expressions with commas between them, up to positions. -/
def RereadItems (es : List Expr) (tokens : List Token) : Prop :=
  ∃ es' : List Expr, Expr.unplacedItems es' = Expr.unplacedItems es ∧
    ∃ d : Derivation (.items es') tokens, d.room = Expr.textRoomItems es

/-- The tokens spell the named expressions with commas between them, up to positions. -/
def RereadEntries (quoted : Bool) (es : List (String × Expr)) (tokens : List Token) : Prop :=
  ∃ es' : List (String × Expr), Expr.unplacedEntries es' = Expr.unplacedEntries es ∧
    ∃ d : Derivation (.entries quoted es') tokens, d.room = Expr.textRoomEntries es

namespace Reread

variable {e : Expr} {tokens : List Token}

theorem loosened (h : Reread e tokens) : ∃ e' : Expr, e'.unplaced = e.unplaced ∧
    ∃ d : Derivation (.chain levels e') tokens, d.room = e.textRoom := by
  obtain ⟨e', he', d, hd⟩ := h.tree
  obtain ⟨d', hd'⟩ := (Derivation.operand d).loosen (Nat.zero_le levels)
  exact ⟨e', he', d', hd'.trans hd⟩

theorem ne_nil (h : Reread e tokens) : tokens ≠ [] := by
  obtain ⟨e', -, d, -⟩ := h.tree
  exact ne_nil_of_opens (d.opens_first rfl)

/-- A literal of one token. -/
theorem of_literal {t : Token} {value : Value} (ht : t.literal? = some value) (pos : Position) :
    Reread (.literal pos value) [t] := by
  have hkind : t.kind ≠ .symbol .leftParen ∧ t.kind ≠ .symbol .leftBracket ∧
      t.kind ≠ .keyword .kwCall ∧ t.kind ≠ .identifier := by
    unfold Token.literal? at ht
    split at ht <;> simp_all
  obtain ⟨hparen, hbracket, hcall, hname⟩ := hkind
  exact {
    tree := ⟨.literal t.position value, rfl, .primary (.literal ht), rfl⟩
    paren := fun h => absurd h hparen
    bracket := fun h => absurd h hbracket
    call := hcall
    name := fun h => absurd h (by simp [endsInName, hname]) }

/-- An expression that is written in parentheses. -/
theorem of_group {e' : Expr} {t u : Token} {ts : List Token}
    (htext : e.text.toList.head? = some '(') (he' : e'.unplaced = e.unplaced)
    (ht : t.Is .leftParen) (d : Derivation (.chain levels e') ts) (hu : u.Is .rightParen)
    (hd : d.room + 1 = e.textRoom) : Reread e (t :: (ts ++ [u])) where
  tree := ⟨e', he', .primary (.group ht d hu), hd⟩
  paren _ := htext
  bracket h := by simp [ht] at h
  call := by simp [ht]
  name h := by
    rw [← List.cons_append, endsInName_concat _ (by simp [hu])] at h
    cases h

/-- An expression that begins with a token of its own and ends with a closing bracket. -/
theorem of_closed {e' : Expr} {t u : Token} {sign : Symbol} (ts : List Token)
    (he' : e'.unplaced = e.unplaced)
    (hd : ∃ d : Derivation (.primary e') (t :: (ts ++ [u])), d.room = e.textRoom)
    (hparen : ¬ t.Is .leftParen) (hbracket : t.Is .leftBracket → e.text.toList.head? = some '[')
    (hcall : ¬ t.IsWord .kwCall) (hu : u.Is sign) : Reread e (t :: (ts ++ [u])) where
  tree := by
    obtain ⟨d, hd⟩ := hd
    exact ⟨e', he', .primary d, hd⟩
  paren h := absurd h hparen
  bracket := hbracket
  call := hcall
  name h := by
    rw [← List.cons_append, endsInName_concat _ (by simp [hu])] at h
    cases h

/-- An expression that begins with another one. -/
theorem of_subject {a e' : Expr} {us vs : List Token} {cs : List Char} (ha : Reread a us)
    (htext : e.text.toList = a.text.toList ++ cs) (he' : e'.unplaced = e.unplaced)
    (d : Derivation (.accessed e') (us ++ vs)) (hd : d.room = e.textRoom)
    (hname : endsInName (us ++ vs) = false) : Reread e (us ++ vs) where
  tree := ⟨e', he', d, hd⟩
  paren h := by
    rw [firstKind_append ha.ne_nil] at h
    simp [htext, ha.paren h]
  bracket h := by
    rw [firstKind_append ha.ne_nil] at h
    simp [htext, ha.bracket h]
  call := by
    rw [firstKind_append ha.ne_nil]
    exact ha.call
  name h := by
    rw [hname] at h
    cases h

end Reread

theorem cuts_identifier {name : String} (h : IsIdentifier name) :
    Cuts Apart name.toList (One .identifier name) := by
  have hkind : nameKind name.toList = .identifier := by
    simp only [nameKind, String.ofList_toList, h.2]
  rw [← hkind]
  exact cuts_word h.1

/-- The text of an operator is a token that stands for it. -/
theorem cuts_binaryOp (op : BinaryOp) : Cuts Apart op.symbol.toList fun tokens =>
    ∃ (t : Token) (l : Nat), tokens = [t] ∧ Joins (l + 1) t.kind op := by
  have hsymbol (sign : Symbol) {l : Nat} (h : Joins (l + 1) (.symbol sign) op) :
      Cuts Apart sign.spelling.toList fun tokens =>
        ∃ (t : Token) (l : Nat), tokens = [t] ∧ Joins (l + 1) t.kind op := by
    apply (cuts_symbol sign).imp
    rintro _ ⟨t, rfl, ht, -⟩
    exact ⟨t, l, rfl, ht ▸ h⟩
  have hkeyword (word : Keyword) {l : Nat} (h : Joins (l + 1) (.keyword word) op) :
      Cuts Apart word.spelling.toList fun tokens =>
        ∃ (t : Token) (l : Nat), tokens = [t] ∧ Joins (l + 1) t.kind op := by
    apply (cuts_keyword word).imp
    rintro _ ⟨t, rfl, ht, -⟩
    exact ⟨t, l, rfl, ht ▸ h⟩
  cases op with
  | add => exact hsymbol .plus .add
  | sub => exact hsymbol .minus .sub
  | mul => exact hsymbol .star .mul
  | div => exact hsymbol .slash .div
  | mod => exact hsymbol .percent .mod
  | equal => exact hsymbol .equal .equal
  | notEqual => exact hsymbol .notEqual .notEqual
  | less => exact hsymbol .less .less
  | lessEqual => exact hsymbol .lessEqual .lessEqual
  | greater => exact hsymbol .greater .greater
  | greaterEqual => exact hsymbol .greaterEqual .greaterEqual
  | and => exact hkeyword .kwAnd .and
  | or => exact hkeyword .kwOr .or

theorem cuts_literal {value : Value} (h : value.Writable) (pos : Position) :
    Cuts Apart (Expr.literal pos value).text.toList (Reread (.literal pos value)) := by
  have hkeyword (word : Keyword) (hword : ∀ t : Token, t.IsWord word → t.literal? = some value) :
      Cuts Apart word.spelling.toList (Reread (.literal pos value)) := by
    apply (cuts_keyword word).imp
    rintro _ ⟨t, rfl, ht, -⟩
    exact .of_literal (hword t ht) pos
  cases value with
  | null => exact hkeyword .kwNull fun t ht => by simp [Token.literal?, ht]
  | bool b =>
      cases b with
      | true => exact hkeyword .kwTrue fun t ht => by simp [Token.literal?, ht]
      | false => exact hkeyword .kwFalse fun t ht => by simp [Token.literal?, ht]
  | number n =>
      apply (cuts_number h.1).imp
      rintro _ ⟨t, rfl, ht, hlexeme⟩
      exact .of_literal (by simp [Token.literal?, ht, hlexeme, h.2]) pos
  | string s =>
      apply ((cuts_string s).weaken Apart).imp
      rintro _ ⟨t, rfl, ht, hlexeme⟩
      exact .of_literal (by simp [Token.literal?, ht, hlexeme]) pos
  | list | object => exact h.elim

theorem cuts_ref {name : String} (h : IsIdentifier name) (pos : Position) :
    Cuts Apart (Expr.ref pos name).text.toList (Reread (.ref pos name)) := by
  apply (cuts_identifier h).imp
  rintro _ ⟨t, rfl, ht, rfl⟩
  exact {
    tree := ⟨.ref t.position t.lexeme, rfl, .primary (.ref ht), rfl⟩
    paren := fun h => by simp [ht] at h
    bracket := fun h => by simp [ht] at h
    call := by simp [ht]
    name := fun _ => ⟨pos, t.lexeme, rfl⟩ }

theorem cuts_binary {a b : Expr} (ha : Cuts Apart a.text.toList (Reread a))
    (hb : Cuts Apart b.text.toList (Reread b)) (pos : Position) (op : BinaryOp) :
    Cuts Free (Expr.binary pos op a b).text.toList (Reread (.binary pos op a b)) := by
  have htext : (Expr.binary pos op a b).text.toList =
      ['('] ++ (a.text.toList ++ ' ' :: (op.symbol.toList ++ ' ' :: (b.text.toList ++ [')']))) := by
    simp [parenthesized]
  have hclose : Cuts Free (b.text.toList ++ [')']) (Both (Reread b) _) :=
    hb.parted (cuts_solid .rightParen rfl) rfl
  have hright : Cuts Free (op.symbol.toList ++ ' ' :: (b.text.toList ++ [')'])) (Both _ _) :=
    (cuts_binaryOp op).parted hclose.space rfl
  have hcut := (cuts_solid .leftParen rfl).followed (ha.parted hright.space rfl)
  rw [htext]
  apply hcut.imp
  rintro _ ⟨_, _, rfl, ⟨t, rfl, ht, -⟩, us, _, rfl, hus, _, _, rfl, ⟨o, l, rfl, ho⟩, vs, _, rfl,
    hvs, u, rfl, hu, -⟩
  obtain ⟨a', ha', d, hd⟩ := hus.tree
  obtain ⟨b', hb', d', hd'⟩ := hvs.tree
  obtain ⟨left, hleft⟩ := (Derivation.operand d).loosen (Nat.zero_le (l + 1))
  obtain ⟨right, hright⟩ := (Derivation.operand d').loosen (Nat.zero_le l)
  obtain ⟨whole, hwhole⟩ := (Derivation.binary left ho right).loosen ho.le_levels
  have htree : (Expr.binary o.position op a' b').unplaced = (Expr.binary pos op a b).unplaced := by
    simp only [Expr.unplaced, ha', hb']
  have hroom : whole.room + 1 = (Expr.binary pos op a b).textRoom := by
    simp only [Derivation.room] at hleft hright hwhole
    rw [hwhole, hleft, hright, hd, hd', Expr.height_eq_of_unplaced ha',
      Expr.height_eq_of_unplaced hb']
    rfl
  have hgroup := Reread.of_group (by rw [htext]; rfl) htree ht whole hu hroom
  simpa only [List.append_assoc, List.cons_append, List.nil_append] using hgroup

/-- The text between the parenthesis and the operand. -/
def UnaryOp.lead : UnaryOp → List Char
  | .not => ['N', 'O', 'T', ' ']
  | .negate => ['-']
  | .plus => ['+']

theorem cuts_unaryOp (op : UnaryOp) : Cuts Free op.lead fun tokens =>
    ∃ t : Token, tokens = [t] ∧ Modifies t.kind op := by
  cases op with
  | not =>
      have hcut : Cuts Free (Keyword.kwNot.spelling.toList ++ ' ' :: []) _ :=
        (cuts_keyword .kwNot).parted (Cuts.nil Free (Q := (· = [])) rfl).space rfl
      apply hcut.imp
      rintro _ ⟨_, _, rfl, ⟨t, rfl, ht, -⟩, rfl⟩
      exact ⟨t, rfl, ht ▸ .not⟩
  | negate =>
      apply (cuts_solid .minus rfl).imp
      rintro _ ⟨t, rfl, ht, -⟩
      exact ⟨t, rfl, ht ▸ .negate⟩
  | plus =>
      apply (cuts_solid .plus rfl).imp
      rintro _ ⟨t, rfl, ht, -⟩
      exact ⟨t, rfl, ht ▸ .plus⟩

theorem cuts_unary {a : Expr} (ha : Cuts Apart a.text.toList (Reread a)) (pos : Position)
    (op : UnaryOp) :
    Cuts Free (Expr.unary pos op a).text.toList (Reread (.unary pos op a)) := by
  have htext : (Expr.unary pos op a).text.toList =
      ['('] ++ (op.lead ++ (a.text.toList ++ [')'])) := by
    cases op <;> simp [parenthesized, UnaryOp.lead, UnaryOp.symbol]
  have hclose : Cuts Free (a.text.toList ++ [')']) (Both (Reread a) _) :=
    ha.parted (cuts_solid .rightParen rfl) rfl
  have hcut := (cuts_solid .leftParen rfl).followed ((cuts_unaryOp op).followed hclose)
  rw [htext]
  apply hcut.imp
  rintro _ ⟨_, _, rfl, ⟨t, rfl, ht, -⟩, _, _, rfl, ⟨o, rfl, ho⟩, us, _, rfl, hus, u, rfl, hu, -⟩
  obtain ⟨a', ha', d, hd⟩ := hus.tree
  obtain ⟨whole, hwhole⟩ := (Derivation.unary ho (.operand d)).loosen (Nat.zero_le levels)
  have htree : (Expr.unary o.position op a').unplaced = (Expr.unary pos op a).unplaced := by
    simp only [Expr.unplaced, ha']
  have hroom : whole.room + 1 = (Expr.unary pos op a).textRoom := by
    simp only [Derivation.room] at hwhole
    rw [hwhole, hd]
    rfl
  exact .of_group (by rw [htext]; rfl) htree ht whole hu hroom

/-- The name of a function other than the clock is a token that can be called. -/
theorem cuts_callee {name : String} (h : IsIdentifier name ∨ name = Keyword.kwPrint.spelling) :
    Cuts Apart name.toList fun tokens => ∃ t : Token, tokens = [t] ∧ t.callee? = some name := by
  rcases h with h | rfl
  · apply (cuts_identifier h).imp
    rintro _ ⟨t, rfl, ht, rfl⟩
    exact ⟨t, rfl, by simp [Token.callee?, ht]⟩
  · apply (cuts_keyword .kwPrint).imp
    rintro _ ⟨t, rfl, ht, -⟩
    exact ⟨t, rfl, by simp [Token.callee?, ht, Keyword.spelling]⟩

theorem not_bracket_of_callee {t : Token} {name : String} (h : t.callee? = some name) :
    ¬ t.Is .leftParen ∧ ¬ t.Is .leftBracket ∧ ¬ t.IsWord .kwCall := by
  unfold Token.callee? at h
  split at h <;> simp_all

theorem cuts_apply {name : String} {args : List Expr}
    (hname : IsIdentifier name ∨ name = Keyword.kwPrint.spelling)
    (hargs : Cuts Apart (commaSeparated (Expr.textItems args)).toList (RereadItems args))
    (pos : Position) :
    Cuts Free (Expr.apply pos name args).text.toList (Reread (.apply pos name args)) := by
  have htext : (Expr.apply pos name args).text.toList =
      name.toList ++ '(' :: ((commaSeparated (Expr.textItems args)).toList ++ [')']) := by
    simp [parenthesized]
  have hclose : Cuts Free ((commaSeparated (Expr.textItems args)).toList ++ [')'])
      (Both (RereadItems args) _) :=
    hargs.parted (cuts_solid .rightParen rfl) rfl
  have hcut := (cuts_callee hname).parted ((cuts_solid .leftParen rfl).followed hclose) rfl
  rw [htext]
  apply hcut.imp
  rintro _ ⟨_, _, rfl, ⟨t, rfl, ht⟩, _, _, rfl, ⟨u, rfl, hu, -⟩, us, _, rfl,
    ⟨args', hargs', d, hd⟩, v, rfl, hv, -⟩
  have htree : (Expr.apply t.position name args').unplaced =
      (Expr.apply pos name args).unplaced := by
    simp only [Expr.unplaced, hargs']
  obtain ⟨hparen, hbracket, hcall⟩ := not_bracket_of_callee ht
  exact .of_closed (u :: us) htree ⟨.apply ht hu d hv, hd⟩ hparen
    (fun h => absurd h hbracket) hcall hv

theorem cuts_now (pos : Position) :
    Cuts Free (Expr.apply pos Keyword.kwNow.spelling []).text.toList
      (Reread (.apply pos Keyword.kwNow.spelling [])) := by
  have htext : (Expr.apply pos Keyword.kwNow.spelling []).text.toList =
      Keyword.kwNow.spelling.toList ++ '(' :: [')'] := by
    simp [commaSeparated, parenthesized]
  have hcut := (cuts_keyword .kwNow).parted
    ((cuts_solid .leftParen rfl).followed (cuts_solid .rightParen rfl)) rfl
  rw [htext]
  apply hcut.imp
  rintro _ ⟨_, _, rfl, ⟨t, rfl, ht, -⟩, _, _, rfl, ⟨u, rfl, hu, -⟩, v, rfl, hv, -⟩
  have htree : (Expr.apply t.position Keyword.kwNow.spelling []).unplaced =
      (Expr.apply pos Keyword.kwNow.spelling []).unplaced := rfl
  exact .of_closed [u] htree ⟨.now ht hu hv, rfl⟩ (by simp [ht])
    (fun h => absurd (ht.symm.trans h) (by simp)) (by simp [ht]) hv

theorem cuts_list {items : List Expr}
    (hitems : Cuts Apart (commaSeparated (Expr.textItems items)).toList (RereadItems items))
    (pos : Position) :
    Cuts Free (Expr.list pos items).text.toList (Reread (.list pos items)) := by
  have htext : (Expr.list pos items).text.toList =
      ['['] ++ ((commaSeparated (Expr.textItems items)).toList ++ [']']) := by
    simp
  have hclose : Cuts Free ((commaSeparated (Expr.textItems items)).toList ++ [']'])
      (Both (RereadItems items) _) :=
    hitems.parted (cuts_solid .rightBracket rfl) rfl
  rw [htext]
  apply ((cuts_solid .leftBracket rfl).followed hclose).imp
  rintro _ ⟨_, _, rfl, ⟨t, rfl, ht, -⟩, us, _, rfl, ⟨items', hitems', d, hd⟩, u, rfl, hu, -⟩
  have htree : (Expr.list t.position items').unplaced = (Expr.list pos items).unplaced := by
    simp only [Expr.unplaced, hitems']
  obtain ⟨d', hd'⟩ := (Derivation.list ht d (.none items') hu).retoken (t :: (us ++ [u]))
    (by rw [List.append_nil])
  exact .of_closed us htree ⟨d', hd'.trans hd⟩ (by simp [ht]) (fun _ => by rw [htext]; rfl)
    (by simp [ht]) hu

theorem cuts_index {a b : Expr} (ha : Cuts Apart a.text.toList (Reread a))
    (hb : Cuts Apart b.text.toList (Reread b)) (pos : Position) :
    Cuts Free (Expr.index pos a b).text.toList (Reread (.index pos a b)) := by
  have htext : (Expr.index pos a b).text.toList =
      a.text.toList ++ '[' :: (b.text.toList ++ [']']) := by
    simp
  have hclose : Cuts Free (b.text.toList ++ [']']) (Both (Reread b) _) :=
    hb.parted (cuts_solid .rightBracket rfl) rfl
  rw [htext]
  apply (ha.parted ((cuts_solid .leftBracket rfl).followed hclose) rfl).imp
  rintro _ ⟨us, _, rfl, hus, _, _, rfl, ⟨t, rfl, ht, -⟩, vs, _, rfl, hvs, u, rfl, hu, -⟩
  obtain ⟨a', ha', d, hd⟩ := hus.tree
  obtain ⟨b', hb', d', hd'⟩ := hvs.loosened
  have htree : (Expr.index t.position a' b').unplaced = (Expr.index pos a b).unplaced := by
    simp only [Expr.unplaced, ha', hb']
  have hroom : (Derivation.index d ht d' hu).room = (Expr.index pos a b).textRoom := by
    simp only [Derivation.room, Expr.textRoom, hd, hd', Expr.height_eq_of_unplaced ha',
      Expr.height_eq_of_unplaced hb']
  have hname : endsInName (us ++ t :: (vs ++ [u])) = false := by
    rw [← List.cons_append, ← List.append_assoc]
    exact endsInName_concat _ (by simp [hu])
  exact .of_subject hus htext htree (.index d ht d' hu) hroom hname

/-- A name behind a dot does not go on with a number. -/
theorem apart_dot {word : String} (h : isWord word = true) (rest : List Char) :
    Apart ('.' :: (word.toList ++ rest)) := by
  intro c hc
  obtain rfl : '.' = c := by simpa using hc
  refine ⟨by decide, by decide, by decide, fun _ d hd => ?_⟩
  unfold isWord at h
  split at h
  · cases h
  · next first others hword =>
      obtain rfl : first = d := by simpa [hword] using hd
      have hstart := isNameStart_iff_toNat.1 (Bool.and_eq_true_iff.1 h).1
      rw [← Bool.not_eq_true, Char.isDigit_iff_toNat]
      simp only [Char.reduceToNat]
      omega

theorem cuts_member {a : Expr} {property : String} (ha : Cuts Apart a.text.toList (Reread a))
    (hproperty : IsIdentifier property) (pos : Position) :
    Cuts Apart (Expr.member pos a property).text.toList (Reread (.member pos a property)) := by
  have htext : (Expr.member pos a property).text.toList =
      a.text.toList ++ (['.'] ++ property.toList) := by
    simp
  have hcut := ha.append ((cuts_solid .dot rfl).followed (cuts_identifier hproperty))
    fun rest _ => apart_dot hproperty.1 rest
  rw [htext]
  apply hcut.imp
  rintro _ ⟨us, _, rfl, hus, _, _, rfl, ⟨t, rfl, ht, -⟩, u, rfl, hu, rfl⟩
  obtain ⟨a', ha', d, hd⟩ := hus.tree
  have htree : (Expr.member t.position a' u.lexeme).unplaced =
      (Expr.member pos a u.lexeme).unplaced := by
    simp only [Expr.unplaced, ha']
  have hroom : (Derivation.member d ht hu).room = (Expr.member pos a u.lexeme).textRoom := by
    simp only [Derivation.room, Expr.textRoom, hd, Expr.height_eq_of_unplaced ha']
  exact .of_subject hus htext htree (.member d ht hu) hroom (endsInName_member us ht)

theorem toList_commaSeparated_cons (text next : String) (rest : List String) :
    (commaSeparated (text :: next :: rest)).toList =
      text.toList ++ (',' :: ' ' :: (commaSeparated (next :: rest)).toList) := by
  simp [commaSeparated, String.intercalate_cons_cons]

theorem cuts_item {e : Expr} (he : Cuts Apart e.text.toList (Reread e)) :
    Cuts Apart (commaSeparated (Expr.textItems [e])).toList (RereadItems [e]) := by
  have htext : commaSeparated (Expr.textItems [e]) = e.text := by
    simp [commaSeparated]
  rw [htext]
  refine he.imp fun tokens h => ?_
  obtain ⟨e', he', d, hd⟩ := h.loosened
  refine ⟨[e'], by simp only [Expr.unplacedItems, he'], .lastItem d, ?_⟩
  simp only [Derivation.room, Expr.textRoomItems, hd, Nat.max_zero]

theorem cuts_items_cons {e next : Expr} {rest : List Expr}
    (he : Cuts Apart e.text.toList (Reread e))
    (hrest : Cuts Apart (commaSeparated (Expr.textItems (next :: rest))).toList
      (RereadItems (next :: rest))) :
    Cuts Apart (commaSeparated (Expr.textItems (e :: next :: rest))).toList
      (RereadItems (e :: next :: rest)) := by
  have hcomma : Cuts Apart (',' :: ' ' :: _) (Both _ (RereadItems (next :: rest))) :=
    (cuts_solid .comma rfl).followed hrest.space
  simp only [Expr.textItems, toList_commaSeparated_cons]
  apply (he.parted hcomma rfl).imp
  rintro _ ⟨us, _, rfl, hus, _, vs, rfl, ⟨t, rfl, ht, -⟩, es', hes', d', hd'⟩
  obtain ⟨e', he', d, hd⟩ := hus.loosened
  -- what was read back begins with the next expression
  cases es' with
  | nil => simp [Expr.unplacedItems] at hes'
  | cons next' rest' =>
      refine ⟨e' :: next' :: rest', ?_, .moreItems d ht d', ?_⟩
      · change e'.unplaced :: _ = e.unplaced :: _
        rw [he', hes']
      · simp only [Derivation.room, Expr.textRoomItems, hd, hd']

section Entries

variable {key : String → String} {quoted : Bool} {name : String} {e : Expr}

/-- The written name is one token that names an entry. -/
def NamesEntry (key : String → String) (quoted : Bool) (name : String) : Prop :=
  Cuts Apart (key name).toList fun tokens =>
    ∃ t : Token, tokens = [t] ∧ t.label? quoted = some name

theorem namesEntry_id (h : IsIdentifier name) : NamesEntry id false name := by
  apply (cuts_identifier h).imp
  rintro _ ⟨t, rfl, ht, rfl⟩
  exact ⟨t, rfl, by simp [Token.label?, ht]⟩

theorem namesEntry_write (name : String) : NamesEntry Text.Quoted.write true name := by
  apply ((cuts_string name).weaken Apart).imp
  rintro _ ⟨t, rfl, ht, rfl⟩
  exact ⟨t, rfl, by simp [Token.label?, ht]⟩

/-- A name, a colon and what stands behind it. -/
theorem cuts_named {text : String} {Q : List Token → Prop} (hname : NamesEntry key quoted name)
    (h : Cuts Apart text.toList Q) :
    Cuts Apart (key name ++ ": " ++ text).toList fun tokens =>
      ∃ t u ts, tokens = t :: u :: ts ∧ t.label? quoted = some name ∧ u.Is .colon ∧ Q ts := by
  have htext : (key name ++ ": " ++ text).toList =
      (key name).toList ++ (':' :: ' ' :: text.toList) := by
    simp
  have hcolon : Cuts Apart (':' :: ' ' :: text.toList) (Both _ Q) :=
    (cuts_solid .colon rfl).followed h.space
  rw [htext]
  apply (Cuts.parted hname hcolon rfl).imp
  rintro _ ⟨_, _, rfl, ⟨t, rfl, ht⟩, _, ts, rfl, ⟨u, rfl, hu, -⟩, hts⟩
  exact ⟨t, u, ts, rfl, ht, hu, hts⟩

theorem cuts_entry (hname : NamesEntry key quoted name)
    (he : Cuts Apart e.text.toList (Reread e)) :
    Cuts Apart (commaSeparated (Expr.textEntries key [(name, e)])).toList
      (RereadEntries quoted [(name, e)]) := by
  have htext : commaSeparated (Expr.textEntries key [(name, e)]) =
      key name ++ ": " ++ e.text := by
    simp [Expr.textEntries, commaSeparated]
  rw [htext]
  apply (cuts_named hname he).imp
  rintro _ ⟨t, u, ts, rfl, ht, hu, hts⟩
  obtain ⟨e', he', d, hd⟩ := hts.loosened
  refine ⟨[(name, e')], by simp only [Expr.unplacedEntries, he'], .lastEntry ht hu d, ?_⟩
  simp only [Derivation.room, Expr.textRoomEntries, hd, Nat.max_zero]

theorem cuts_entries_cons {next : String × Expr} {rest : List (String × Expr)}
    (hname : NamesEntry key quoted name) (he : Cuts Apart e.text.toList (Reread e))
    (hrest : Cuts Apart (commaSeparated (Expr.textEntries key (next :: rest))).toList
      (RereadEntries quoted (next :: rest))) :
    Cuts Apart (commaSeparated (Expr.textEntries key ((name, e) :: next :: rest))).toList
      (RereadEntries quoted ((name, e) :: next :: rest)) := by
  have hcomma : Cuts Apart (',' :: ' ' :: _) (Both _ (RereadEntries quoted (next :: rest))) :=
    (cuts_solid .comma rfl).followed hrest.space
  simp only [Expr.textEntries, toList_commaSeparated_cons]
  apply ((cuts_named hname he).parted hcomma rfl).imp
  rintro _ ⟨_, _, rfl, ⟨t, u, ts, rfl, ht, hu, hts⟩, _, vs, rfl, ⟨v, rfl, hv, -⟩, hothers⟩
  obtain ⟨es', hes', d', hd'⟩ := hothers
  obtain ⟨e', he', d, hd⟩ := hts.loosened
  cases es' with
  | nil => simp [Expr.unplacedEntries] at hes'
  | cons next' rest' =>
      refine ⟨(name, e') :: next' :: rest', ?_, .moreEntries ht hu d hv d', ?_⟩
      · change (name, e'.unplaced) :: _ = (name, e.unplaced) :: _
        rw [he', hes']
      · simp only [Derivation.room, Expr.textRoomEntries, hd, hd']

end Entries

/-- Entries that were read back have no name twice either. -/
theorem merged_of_unplaced {es es' : List (String × Expr)} (h : Dict.Unique es)
    (hes' : Expr.unplacedEntries es' = Expr.unplacedEntries es) : merged es' = es' := by
  have hkeys : Dict.keys es' = Dict.keys es := by
    rw [← Expr.keys_unplacedEntries es', hes', Expr.keys_unplacedEntries]
  have hunique : Dict.Unique es' := by
    rw [Dict.Unique, hkeys]
    exact h
  rw [merged_eq, hunique.ofList_eq]

theorem cuts_object {entries : List (String × Expr)} (hunique : Dict.Unique entries)
    (hentries : Cuts Apart
      (commaSeparated (Expr.textEntries Text.Quoted.write entries)).toList
      (RereadEntries true entries)) (pos : Position) :
    Cuts Free (Expr.object pos entries).text.toList (Reread (.object pos entries)) := by
  have htext : (Expr.object pos entries).text.toList =
      ['\x7b'] ++ ((commaSeparated (Expr.textEntries Text.Quoted.write entries)).toList ++
        ['\x7d']) := by
    simp [braced]
  have hclose : Cuts Free (_ ++ ['\x7d']) (Both (RereadEntries true entries) _) :=
    hentries.parted (cuts_solid .rightBrace rfl) rfl
  rw [htext]
  apply ((cuts_solid .leftBrace rfl).followed hclose).imp
  rintro _ ⟨_, _, rfl, ⟨t, rfl, ht, -⟩, us, _, rfl, ⟨es', hes', d, hd⟩, u, rfl, hu, -⟩
  have htree : (Expr.object t.position (merged es')).unplaced =
      (Expr.object pos entries).unplaced := by
    simp only [Expr.unplaced, merged_of_unplaced hunique hes', hes']
  obtain ⟨d', hd'⟩ := (Derivation.object ht d (.none es') hu).retoken (t :: (us ++ [u]))
    (by rw [List.append_nil])
  exact .of_closed us htree ⟨d', hd'.trans hd⟩ (by simp [ht])
    (fun h => absurd (ht.symm.trans h) (by simp)) (by simp [ht]) hu

/-- The tokens are braces around named arguments. -/
def RereadBlock (args : List (String × Expr)) (tokens : List Token) : Prop :=
  ∃ t ts u, tokens = t :: (ts ++ [u]) ∧ t.Is .leftBrace ∧ RereadEntries false args ts ∧
    u.Is .rightBrace

theorem cuts_argumentBlock {args : List (String × Expr)}
    (hargs : Cuts Apart (commaSeparated (Expr.textEntries id args)).toList
      (RereadEntries false args)) :
    Cuts Free (argumentBlock (Expr.textEntries id args)).toList (RereadBlock args) := by
  cases args with
  | nil =>
      apply ((cuts_solid .leftBrace rfl).followed (cuts_solid .rightBrace rfl)).imp
      rintro _ ⟨_, _, rfl, ⟨t, rfl, ht, -⟩, u, rfl, hu, -⟩
      exact ⟨t, [], u, rfl, ht, ⟨[], rfl, .noEntries, rfl⟩, hu⟩
  | cons arg rest =>
      have htext : (argumentBlock (Expr.textEntries id (arg :: rest))).toList =
          ['\x7b'] ++ (' ' :: ((commaSeparated (Expr.textEntries id (arg :: rest))).toList ++
            ' ' :: ['\x7d'])) := by
        simp [argumentBlock, Expr.textEntries, braced]
      have hclose : Cuts Free (_ ++ ' ' :: ['\x7d']) (Both (RereadEntries false (arg :: rest)) _) :=
        hargs.parted (cuts_solid .rightBrace rfl).space rfl
      rw [htext]
      apply ((cuts_solid .leftBrace rfl).followed hclose.space).imp
      rintro _ ⟨_, _, rfl, ⟨t, rfl, ht, -⟩, us, _, rfl, hus, u, rfl, hu, -⟩
      exact ⟨t, us, u, rfl, ht, hus, hu⟩

/-- The text of a tool call behind the parenthesis. -/
theorem cuts_invocation {name : String} {args : List (String × Expr)} (hname : IsIdentifier name)
    (hargs : Cuts Apart (commaSeparated (Expr.textEntries id args)).toList
      (RereadEntries false args)) :
    Cuts Free ("CALL " ++ name ++ " " ++ argumentBlock (Expr.textEntries id args)).toList
      fun tokens => ∃ t u ts, tokens = t :: u :: ts ∧ t.IsWord .kwCall ∧ u.IsName ∧
        u.lexeme = name ∧ RereadBlock args ts := by
  have htext : ("CALL " ++ name ++ " " ++ argumentBlock (Expr.textEntries id args)).toList =
      Keyword.kwCall.spelling.toList ++ ' ' :: (name.toList ++ ' ' ::
        (argumentBlock (Expr.textEntries id args)).toList) := by
    simp [Keyword.spelling]
  have hblock : Cuts Free (name.toList ++ ' ' :: _) (Both _ (RereadBlock args)) :=
    (cuts_identifier hname).parted (cuts_argumentBlock hargs).space rfl
  rw [htext]
  apply ((cuts_keyword .kwCall).parted hblock.space rfl).imp
  rintro _ ⟨_, _, rfl, ⟨t, rfl, ht, -⟩, _, ts, rfl, ⟨u, rfl, hu, rfl⟩, hts⟩
  exact ⟨t, u, ts, rfl, ht, hu, rfl, hts⟩

theorem cuts_tool {name : String} {args : List (String × Expr)} (hname : IsIdentifier name)
    (hunique : Dict.Unique args)
    (hargs : Cuts Apart (commaSeparated (Expr.textEntries id args)).toList
      (RereadEntries false args)) (pos : Position) :
    Cuts Free (Expr.tool pos name args).text.toList (Reread (.tool pos name args)) := by
  have htext : (Expr.tool pos name args).text.toList =
      ['('] ++ (("CALL " ++ name ++ " " ++ argumentBlock (Expr.textEntries id args)).toList ++
        [')']) := by
    simp [parenthesized]
  rw [htext]
  refine ((cuts_solid .leftParen rfl).followed ((cuts_invocation hname hargs).followed
    (cuts_solid .rightParen rfl))).imp ?_
  rintro _ ⟨_, _, rfl, ⟨t, rfl, ht, -⟩, _, _, rfl, ⟨c, f, _, rfl, hc, hf, rfl, l, us, r, rfl, hl,
    ⟨es', hes', d, hd⟩, hr⟩, u, rfl, hu, -⟩
  obtain ⟨whole, hwhole⟩ :=
    (Derivation.operand (.primary (.tool hc hf hl d hr))).loosen (Nat.zero_le levels)
  have htree : (Expr.tool c.position f.lexeme (merged es')).unplaced =
      (Expr.tool pos f.lexeme args).unplaced := by
    simp only [Expr.unplaced, merged_of_unplaced hunique hes', hes']
  have hroom : whole.room + 1 = (Expr.tool pos f.lexeme args).textRoom := by
    simp only [Derivation.room] at hwhole
    rw [hwhole, hd]
    rfl
  exact .of_group (by rw [htext]; rfl) htree ht whole hu hroom

namespace Expr

mutual

/-- The text of a well-formed expression is cut into tokens that spell it again. -/
theorem cuts_text (e : Expr) (h : e.WellFormed) : Cuts Apart e.text.toList (Reread e) := by
  cases e with
  | literal pos value => exact cuts_literal h pos
  | ref pos name => exact cuts_ref h pos
  | binary pos op a b =>
      exact (cuts_binary (cuts_text a h.1) (cuts_text b h.2) pos op).weaken Apart
  | unary pos op a => exact (cuts_unary (cuts_text a h) pos op).weaken Apart
  | apply pos name args =>
      obtain ⟨hname | hname | ⟨rfl, rfl⟩, hargs⟩ := h
      · exact (cuts_apply (.inl hname) (cuts_textItems args hargs) pos).weaken Apart
      · exact (cuts_apply (.inr hname) (cuts_textItems args hargs) pos).weaken Apart
      · exact (cuts_now pos).weaken Apart
  | tool pos name args =>
      obtain ⟨hname, hunique, hkeys, hargs⟩ := h
      have hcut := cuts_textEntries args hargs fun key hkey => namesEntry_id (hkeys key hkey)
      exact (cuts_tool hname hunique hcut pos).weaken Apart
  | list pos items => exact (cuts_list (cuts_textItems items h) pos).weaken Apart
  | object pos entries =>
      have hcut := cuts_textEntries entries h.2 fun key _ => namesEntry_write key
      exact (cuts_object h.1 hcut pos).weaken Apart
  | index pos a b => exact (cuts_index (cuts_text a h.1) (cuts_text b h.2) pos).weaken Apart
  | member pos a property => exact cuts_member (cuts_text a h.1) h.2 pos

theorem cuts_textItems (items : List Expr) (h : WellFormedItems items) :
    Cuts Apart (commaSeparated (textItems items)).toList (RereadItems items) := by
  cases items with
  | nil => exact .nil Apart ⟨[], rfl, .noItems, rfl⟩
  | cons e rest =>
      cases rest with
      | nil => exact cuts_item (cuts_text e h.1)
      | cons next rest =>
          exact cuts_items_cons (cuts_text e h.1) (cuts_textItems (next :: rest) h.2)

theorem cuts_textEntries {key : String → String} {quoted : Bool}
    (entries : List (String × Expr)) (h : WellFormedEntries entries)
    (hkeys : ∀ name ∈ Dict.keys entries, NamesEntry key quoted name) :
    Cuts Apart (commaSeparated (textEntries key entries)).toList
      (RereadEntries quoted entries) := by
  cases entries with
  | nil => exact .nil Apart ⟨[], rfl, .noEntries, rfl⟩
  | cons entry rest =>
      obtain ⟨name, e⟩ := entry
      have hname := hkeys name (by simp [Dict.keys])
      cases rest with
      | nil => exact cuts_entry hname (cuts_text e h.1)
      | cons next rest =>
          refine cuts_entries_cons hname (cuts_text e h.1) ?_
          exact cuts_textEntries (next :: rest) h.2 fun other hother =>
            hkeys other (List.mem_cons_of_mem _ hother)

end

end Expr

end ToolScript
