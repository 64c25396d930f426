import ToolScript.Proofs.Grammar.Derivation

/-!
# Whatever is read has a derivation

When a reader of expressions succeeds, the tokens it took have a derivation of the tree it
gives, reading that derivation takes no more room than there was, and what follows does not
go on with the expression. Each round of a loop is described once by what it can do; the
loops follow by induction on their rounds, and the readers by induction on the room.
-/

namespace ToolScript.Grammar

open Reader

/-- The tokens have a derivation that fits into the room, and nothing in `rest` goes on
with it. -/
def Derived (room level : Nat) (ts rest : List Token) (e : Expr) : Prop :=
  ∃ d : Derivation (.chain level e) ts, d.room ≤ room ∧ Stops level ts rest

/-- The same for an expression inside another one, which has one unit of room less. -/
def Inside (room : Nat) (ts rest : List Token) (e : Expr) : Prop :=
  ∃ d : Derivation (.chain levels e) ts, d.room < room ∧ Stops levels ts rest

variable {room level : Nat} {inner : Reader Expr} {s t : Stream}

theorem operator_eq_ok {op? : Option BinaryOp} (hs : s.Closed)
    (h : operator? level s = .ok (op?, t)) :
    t = s ∧ op? = (BinaryOp.ofKind? (firstKind s.ahead)).filter fun op => op.level = level := by
  obtain ⟨kind, s', hpeek, h⟩ := bind_eq_ok_iff.1 h
  obtain ⟨rfl, rfl⟩ := peekKind_eq_ok hs hpeek
  obtain ⟨rfl, rfl⟩ := pure_eq_ok_iff.1 h
  exact ⟨rfl, rfl⟩

/-- What a round of an operator chain can do. -/
theorem chainRound_eq_ok {P : List Token → List Token → Expr → Prop} (hinner : Sound inner P)
    {a e : Expr} {again : Bool} (hs : s.Closed)
    (h : chainRound room level inner a s = .ok ((e, again), t)) :
    (again = false ∧ e = a ∧ t = s ∧
      ∀ op, ¬ Joins level (firstKind s.ahead) op) ∨
    (again = true ∧ ∃ token op us b, s.Taken (token :: us) t ∧ Joins level token.kind op ∧
      P us t.ahead b ∧
      e = .binary token.position op a b ∧ e.height ≤ room) := by
  obtain ⟨op?, s', hop, h⟩ := bind_eq_ok_iff.1 h
  obtain ⟨rfl, hfilter⟩ := operator_eq_ok hs hop
  cases op? with
  | none =>
      obtain ⟨heq, rfl⟩ := pure_eq_ok_iff.1 h
      cases heq
      refine .inl ⟨rfl, rfl, rfl, fun op hop => ?_⟩
      obtain ⟨hkind, hlevel⟩ := joins_iff.1 hop
      have hne := Option.filter_eq_none_iff.1 hfilter.symm op hkind
      simp [hlevel] at hne
  | some op =>
      obtain ⟨hkind, hlevel⟩ := Option.filter_eq_some_iff.1 hfilter.symm
      have hop : Joins level (firstKind s'.ahead) op :=
        joins_iff.2 ⟨hkind, by simpa using hlevel⟩
      have hne : firstKind s'.ahead ≠ .endOfInput := hop.ne rfl
      obtain ⟨token, s₁, hadvance, h⟩ := bind_eq_ok_iff.1 h
      obtain ⟨htoken, htkind⟩ := advance_eq_ok hne hadvance
      obtain ⟨b, s₂, hb, h⟩ := bind_eq_ok_iff.1 h
      obtain ⟨us, hus, hP⟩ := hinner _ _ _ (htoken.closed hs) hb
      obtain ⟨e', s₃, hbounded, hpure⟩ := bind_eq_ok_iff.1 h
      obtain ⟨rfl, rfl, hheight⟩ := bounded_eq_ok hbounded
      obtain ⟨heq, rfl⟩ := pure_eq_ok_iff.1 hpure
      cases heq
      exact .inr ⟨rfl, token, op, us, b, htoken.trans hus, htkind ▸ hop, hP, rfl, hheight⟩

theorem Stops.succ {ts rest : List Token} (h : Stops level ts rest)
    (hop : ∀ op, ¬ Joins (level + 1) (firstKind rest) op) :
    Stops (level + 1) ts rest where
  bracket := h.bracket
  dot := h.dot
  operator l op hl := Nat.lt_of_le_of_ne (h.operator l op hl) fun heq => hop op (heq ▸ hl)
  call := h.call

/-- Rounds go on with the chain that was read so far. -/
theorem chain_rounds (hinner : Sound inner (Derived room level)) {a e : Expr} {ts : List Token}
    (d : Derivation (.chain (level + 1) a) ts) (hd : d.room ≤ room)
    (hstops : Stops level ts s.ahead) (hs : s.Closed)
    (h : loop (chainRound room (level + 1) inner) a s = .ok (e, t)) :
    ∃ us, s.Taken us t ∧ Derived room (level + 1) (ts ++ us) t.ahead e := by
  refine loop_induction (P := fun s a e t => ∀ ts, ∀ d : Derivation (.chain (level + 1) a) ts,
    d.room ≤ room → Stops level ts s.ahead →
      ∃ us, s.Taken us t ∧ Derived room (level + 1) (ts ++ us) t.ahead e)
    ?_ ?_ hs h ts d hd hstops
  · intro s a b t hs hround ts d hd hstops
    rcases chainRound_eq_ok hinner hs hround with ⟨_, rfl, rfl, hop⟩ | ⟨hagain, _⟩
    · refine ⟨[], .refl _, ?_⟩
      rw [List.append_nil]
      exact ⟨d, hd, hstops.succ hop⟩
    · cases hagain
  · intro s a c t hs hround
    rcases chainRound_eq_ok hinner hs hround with ⟨hagain, _⟩ |
      ⟨_, token, op, us, b, htaken, hop, ⟨d', hd', hstops'⟩, rfl, hheight⟩
    · cases hagain
    · refine ⟨⟨token :: us, by simp, htaken⟩, fun e u ih ts d hd hstops => ?_⟩
      have hus := ne_nil_of_opens (d'.opens_first rfl)
      have hroom : (Derivation.binary d hop d').room ≤ room := by
        simp only [Expr.height] at hheight
        simp only [Derivation.room]
        omega
      obtain ⟨vs, hvs, hderived⟩ := ih _ (.binary d hop d') hroom
        (hstops'.congr (endsInName_append ts hus (hop.ne rfl)))
      refine ⟨token :: us ++ vs, htaken.trans hvs, ?_⟩
      rw [← List.append_assoc]
      exact hderived

theorem sound_chains (hinner : Sound inner (Derived room 0)) (level : Nat) :
    Sound (chains room inner level) (Derived room level) := by
  induction level with
  | zero => exact hinner
  | succ level ih =>
      intro s t e hs h
      obtain ⟨a, s', ha, h⟩ := bind_eq_ok_iff.1 h
      obtain ⟨ts, hts, d, hd, hstops⟩ := ih _ _ _ hs ha
      obtain ⟨us, hus, hderived⟩ :=
        chain_rounds ih (.tighter d) hd hstops (hts.closed hs) h
      exact ⟨ts ++ us, hts.trans hus, hderived⟩

section Rows

variable {α β : Type}

/-- Items with commas between them, where `R` says which tokens spell an item. -/
inductive Row (R : List Token → β → Prop) : List Token → List β → Prop
  | none : Row R [] []
  | last {ts : List Token} {x : β} (hx : R ts x) : Row R ts [x]
  | more {ts us : List Token} {comma : Token} {x y : β} {ys : List β} (hx : R ts x)
      (hcomma : comma.Is .comma) (h : Row R us (y :: ys)) :
      Row R (ts ++ comma :: us) (x :: y :: ys)

variable {close : Symbol} {trailing : Bool} {item : α → Reader α} {push : α → β → α}
  {R : List Token → β → Prop} {a c : α}

theorem foldl_concat (xs ys : List α) : ys.foldl (fun zs y => zs ++ [y]) xs = xs ++ ys := by
  induction ys generalizing xs with
  | nil => simp
  | cons y ys ih => rw [List.foldl_cons, ih, List.append_assoc, List.singleton_append]

/-- What a round of a row can do. -/
theorem itemRound_eq_ok
    (hitem : ∀ a, Sound (item a) fun ts _ b => ∃ x, b = push a x ∧ R ts x) {b : α} {again : Bool}
    (hs : s.Closed) (h : itemRound close trailing item a s = .ok ((b, again), t)) :
    ∃ ts tail x, s.Taken (ts ++ tail) t ∧ R ts x ∧ b = push a x ∧
      ((again = false ∧ tail = []) ∨ ∃ comma : Token, comma.Is .comma ∧ tail = [comma] ∧
        (again = false → trailing = true)) := by
  obtain ⟨b', s', hb, h⟩ := bind_eq_ok_iff.1 h
  obtain ⟨ts, hts, x, rfl, hx⟩ := hitem a _ _ _ hs hb
  have hs' := hts.closed hs
  obtain ⟨found, s₁, haccept, hround⟩ := bind_eq_ok_iff.1 h
  rcases accept_eq_ok hs' (by simp) haccept with ⟨rfl, comma, hcomma, hkind⟩ | ⟨rfl, rfl, _⟩
  · obtain ⟨next, s₂, hpeek, hpure⟩ := bind_eq_ok_iff.1 hround
    obtain ⟨rfl, rfl⟩ := peekKind_eq_ok (hcomma.closed hs') hpeek
    obtain ⟨heq, rfl⟩ := pure_eq_ok_iff.1 hpure
    cases heq
    refine ⟨ts, [comma], x, hts.trans hcomma, hx, rfl, .inr ⟨comma, hkind, rfl, ?_⟩⟩
    cases trailing <;> simp
  · obtain ⟨heq, rfl⟩ := pure_eq_ok_iff.1 hround
    cases heq
    refine ⟨ts, [], x, ?_, hx, rfl, .inl ⟨rfl, rfl⟩⟩
    rw [List.append_nil]
    exact hts

theorem row_rounds (hitem : ∀ a, Sound (item a) fun ts _ b => ∃ x, b = push a x ∧ R ts x)
    (hs : s.Closed) (h : loop (itemRound close trailing item) a s = .ok (c, t)) :
    ∃ ts tail x xs, s.Taken (ts ++ tail) t ∧ Row R ts (x :: xs) ∧ Tail (x :: xs) tail ∧
      (trailing = true ∨ tail = []) ∧ c = (x :: xs).foldl push a := by
  refine loop_induction (P := fun s a c t => ∃ ts tail x xs, s.Taken (ts ++ tail) t ∧
    Row R ts (x :: xs) ∧ Tail (x :: xs) tail ∧ (trailing = true ∨ tail = []) ∧
      c = (x :: xs).foldl push a) ?_ ?_ hs h
  · intro s a b t hs hround
    obtain ⟨ts, tail, x, htaken, hx, rfl, ⟨_, rfl⟩ | ⟨comma, hcomma, rfl, htrailing⟩⟩ :=
      itemRound_eq_ok hitem hs hround
    · exact ⟨ts, [], x, [], htaken, .last hx, .none _, .inr rfl, rfl⟩
    · exact ⟨ts, [comma], x, [], htaken, .last hx, .comma x [] hcomma, .inl (htrailing rfl), rfl⟩
  · intro s a b t hs hround
    obtain ⟨ts, tail, x, htaken, hx, rfl, ⟨hagain, _⟩ | ⟨comma, hcomma, rfl, _⟩⟩ :=
      itemRound_eq_ok hitem hs hround
    · cases hagain
    · refine ⟨⟨ts ++ [comma], by simp, htaken⟩, ?_⟩
      rintro c u ⟨us, tail, y, ys, htaken', hrow, htail, htrailing, rfl⟩
      refine ⟨ts ++ comma :: us, tail, x, y :: ys, ?_, .more hx hcomma hrow, ?_, htrailing, rfl⟩
      · have htrans := htaken.trans htaken'
        simp only [List.append_assoc, List.singleton_append] at htrans
        simpa only [List.append_assoc, List.cons_append] using htrans
      · cases htail with
        | none => exact .none _
        | comma _ _ h => exact .comma x _ h

theorem separated_eq_ok (push : α → β → α)
    (hitem : ∀ a, Sound (item a) fun ts _ b => ∃ x, b = push a x ∧ R ts x) (hs : s.Closed)
    (h : separated close trailing item a s = .ok (c, t)) :
    ∃ ts tail xs, s.Taken (ts ++ tail) t ∧ Row R ts xs ∧ Tail xs tail ∧
      (trailing = true ∨ tail = []) ∧ c = xs.foldl push a := by
  obtain ⟨kind, s', hpeek, hrow⟩ := bind_eq_ok_iff.1 h
  obtain ⟨rfl, rfl⟩ := peekKind_eq_ok hs hpeek
  split at hrow
  · obtain ⟨rfl, rfl⟩ := pure_eq_ok_iff.1 hrow
    exact ⟨[], [], [], .refl _, .none, .none _, .inr rfl, rfl⟩
  · obtain ⟨ts, tail, x, xs, htaken, hitems, htail, htrailing, rfl⟩ := row_rounds hitem hs hrow
    exact ⟨ts, tail, x :: xs, htaken, hitems, htail, htrailing, rfl⟩

end Rows

/-- The tokens spell an item that fits into the room. -/
def ItemOf (room : Nat) (ts : List Token) (e : Expr) : Prop :=
  ∃ d : Derivation (.chain levels e) ts, d.room < room

/-- The tokens spell a named entry that fits into the room. -/
def EntryOf (room : Nat) (quoted : Bool) (ts : List Token) (x : String × Expr) : Prop :=
  ∃ token colon us, ts = token :: colon :: us ∧ token.label? quoted = some x.1 ∧
    colon.Is .colon ∧ ItemOf room us x.2

theorem Row.items {ts : List Token} {es : List Expr} (h : Row (ItemOf room) ts es) :
    ∃ d : Derivation (.items es) ts, d.room ≤ room := by
  induction h with
  | none => exact ⟨.noItems, Nat.zero_le room⟩
  | last hx =>
      obtain ⟨d, hd⟩ := hx
      exact ⟨.lastItem d, hd⟩
  | more hx hcomma _ ih =>
      obtain ⟨d, hd⟩ := hx
      obtain ⟨d', hd'⟩ := ih
      exact ⟨.moreItems d hcomma d', Nat.max_le.2 ⟨hd, hd'⟩⟩

theorem Row.entries {quoted : Bool} {ts : List Token} {es : List (String × Expr)}
    (h : Row (EntryOf room quoted) ts es) :
    ∃ d : Derivation (.entries quoted es) ts, d.room ≤ room := by
  induction h with
  | none => exact ⟨.noEntries, Nat.zero_le room⟩
  | last hx =>
      obtain ⟨token, colon, us, rfl, htoken, hcolon, d, hd⟩ := hx
      exact ⟨.lastEntry htoken hcolon d, hd⟩
  | more hx hcomma _ ih =>
      obtain ⟨token, colon, us, rfl, htoken, hcolon, d, hd⟩ := hx
      obtain ⟨d', hd'⟩ := ih
      exact ⟨.moreEntries htoken hcolon d hcomma d', Nat.max_le.2 ⟨hd, hd'⟩⟩

theorem sound_item (hinner : Sound inner (Inside room)) (es : List Expr) :
    Sound (item inner es) fun ts _ fs => ∃ e, fs = es ++ [e] ∧ ItemOf room ts e := by
  intro s t fs hs h
  obtain ⟨e, s', he, hpure⟩ := bind_eq_ok_iff.1 h
  obtain ⟨ts, hts, d, hd, _⟩ := hinner _ _ _ hs he
  obtain ⟨rfl, rfl⟩ := pure_eq_ok_iff.1 hpure
  exact ⟨ts, hts, e, rfl, d, hd⟩

/-- A name, a colon and a value make an entry. -/
theorem sound_labelled {quoted : Bool} {label : Reader String} {expected : Expectation}
    (hinner : Sound inner (Inside room)) (dict : Dict Expr)
    (hlabel : Sound label fun ts _ name => ∃ token, ts = [token] ∧
      token.label? quoted = some name) :
    Sound (label >>= fun name => expectSymbol .colon expected >>= fun _ =>
      inner >>= fun value => pure (Dict.insert dict name value)) fun ts _ after =>
        ∃ x, after = Dict.insert dict x.1 x.2 ∧ EntryOf room quoted ts x := by
  intro s t after hs h
  obtain ⟨name, s₁, hname, h⟩ := bind_eq_ok_iff.1 h
  obtain ⟨_, htoken, token, rfl, hkind⟩ := hlabel _ _ _ hs hname
  have hs₁ := htoken.closed hs
  obtain ⟨colon, s₂, hcolon, h⟩ := bind_eq_ok_iff.1 h
  obtain ⟨hcolon, hcolonKind⟩ := expectSymbol_eq_ok hs₁ hcolon
  have hs₂ := hcolon.closed hs₁
  obtain ⟨e, s₃, he, hpure⟩ := bind_eq_ok_iff.1 h
  obtain ⟨us, hus, d, hd, _⟩ := hinner _ _ _ hs₂ he
  obtain ⟨rfl, rfl⟩ := pure_eq_ok_iff.1 hpure
  exact ⟨token :: colon :: us, htoken.trans (hcolon.trans hus), (name, e), rfl, token, colon, us,
    rfl, hkind, hcolonKind, d, hd⟩

theorem sound_argument (hinner : Sound inner (Inside room)) (dict : Dict Expr) :
    Sound (argument inner dict) fun ts _ after =>
      ∃ x, after = Dict.insert dict x.1 x.2 ∧ EntryOf room false ts x := by
  refine sound_labelled hinner dict fun s t name hs h => ?_
  obtain ⟨token, htoken, hkind, rfl⟩ := expectName_eq_ok hs h
  exact ⟨[token], htoken, token, rfl, by simp [Token.label?, hkind]⟩

theorem sound_property (hinner : Sound inner (Inside room)) (dict : Dict Expr) :
    Sound (property inner dict) fun ts _ after =>
      ∃ x, after = Dict.insert dict x.1 x.2 ∧ EntryOf room true ts x := by
  refine sound_labelled hinner dict fun s t name hs h => ?_
  obtain ⟨kind, s', hpeek, hname⟩ := bind_eq_ok_iff.1 h
  obtain ⟨hfirst, rfl⟩ := peekKind_eq_ok hs hpeek
  -- an identifier and a string are taken alike
  have htake (hne : kind ≠ .endOfInput)
      (h : (advance >>= fun token => pure token.lexeme : Reader String) s' = .ok (name, t)) :
      ∃ token, s'.Taken [token] t ∧ token.kind = kind ∧ name = token.lexeme := by
    obtain ⟨token, s₁, hadvance, hpure⟩ := bind_eq_ok_iff.1 h
    obtain ⟨htoken, hkind⟩ := advance_eq_ok (hfirst ▸ hne) hadvance
    obtain ⟨rfl, rfl⟩ := pure_eq_ok_iff.1 hpure
    exact ⟨token, htoken, hkind.trans hfirst.symm, rfl⟩
  split at hname
  · obtain ⟨token, htoken, hkind, rfl⟩ := htake (by simp) hname
    exact ⟨[token], htoken, token, rfl, by simp [Token.label?, hkind]⟩
  · obtain ⟨token, htoken, hkind, rfl⟩ := htake (by simp) hname
    exact ⟨[token], htoken, token, rfl, by simp [Token.label?, hkind]⟩
  · cases hname

theorem callArguments_eq_ok (hinner : Sound inner (Inside room)) {es : List Expr}
    (hs : s.Closed) (h : callArguments inner s = .ok (es, t)) :
    ∃ ts close, s.Taken (ts ++ [close]) t ∧ close.Is .rightParen ∧
      ∃ d : Derivation (.items es) ts, d.room ≤ room := by
  obtain ⟨es', s₁, hitems, h⟩ := bind_eq_ok_iff.1 h
  obtain ⟨ts, tail, xs, htaken, hrow, -, htail, rfl⟩ :=
    separated_eq_ok (fun es e => es ++ [e]) (sound_item hinner) hs hitems
  obtain rfl : tail = [] := htail.resolve_left (by simp)
  obtain ⟨close, s₂, hexpect, hpure⟩ := bind_eq_ok_iff.1 h
  obtain ⟨hclose, hkind⟩ := expectSymbol_eq_ok (htaken.closed hs) hexpect
  obtain ⟨rfl, rfl⟩ := pure_eq_ok_iff.1 hpure
  rw [List.append_nil] at htaken
  rw [foldl_concat, List.nil_append]
  exact ⟨ts, close, htaken.trans hclose, hkind, hrow.items⟩

theorem invocation_eq_ok (hinner : Sound inner (Inside room)) {tool : String}
    {args : Dict Expr} (hs : s.Closed) (h : invocation inner s = .ok ((tool, args), t)) :
    ∃ name lead ts close es, s.Taken (name :: lead :: (ts ++ [close])) t ∧ name.IsName ∧
      lead.Is .leftBrace ∧ close.Is .rightBrace ∧ tool = name.lexeme ∧ args = merged es ∧
      ∃ d : Derivation (.entries false es) ts, d.room ≤ room := by
  obtain ⟨tool', s₁, hread, h⟩ := bind_eq_ok_iff.1 h
  obtain ⟨name, hname, hnameKind, rfl⟩ := expectName_eq_ok hs hread
  have hs₁ := hname.closed hs
  obtain ⟨lead, s₂, hread, h⟩ := bind_eq_ok_iff.1 h
  obtain ⟨hlead, hleadKind⟩ := expectSymbol_eq_ok hs₁ hread
  have hs₂ := hlead.closed hs₁
  obtain ⟨args', s₃, hread, h⟩ := bind_eq_ok_iff.1 h
  obtain ⟨ts, tail, es, htaken, hrow, -, htail, rfl⟩ :=
    separated_eq_ok (fun dict (x : String × Expr) => Dict.insert dict x.1 x.2)
      (sound_argument hinner) hs₂ hread
  obtain rfl : tail = [] := htail.resolve_left (by simp)
  obtain ⟨close, s₄, hread, hpure⟩ := bind_eq_ok_iff.1 h
  obtain ⟨hclose, hcloseKind⟩ := expectSymbol_eq_ok (htaken.closed hs₂) hread
  obtain ⟨heq, rfl⟩ := pure_eq_ok_iff.1 hpure
  cases heq
  rw [List.append_nil] at htaken
  exact ⟨name, lead, ts, close, es, hname.trans (hlead.trans (htaken.trans hclose)), hnameKind,
    hleadKind, hcloseKind, rfl, (merged_eq es).symm, hrow.entries⟩

/-- The tokens have a derivation without operators, indices and members that fits into the
room. -/
def DerivedPrimary (room : Nat) (ts rest : List Token) (e : Expr) : Prop :=
  ∃ d : Derivation (.primary e) ts, d.room ≤ room ∧ Uncalled ts rest

theorem uncalled_close (ts : List Token) {rest : List Token} {close : Token} {sign : Symbol}
    (h : close.Is sign) : Uncalled (ts ++ [close]) rest := by
  intro _
  apply endsInName_concat
  rw [h]
  simp

/-- A primary expression begins with a token. -/
theorem primary_eq_ok {e : Expr} (hs : s.Closed) (h : primary inner s = .ok (e, t)) :
    ∃ token s', s.Taken [token] s' ∧ primaryFrom inner token s' = .ok (e, t) := by
  obtain ⟨token, s₁, hpeek, h⟩ := bind_eq_ok_iff.1 h
  cases hpeek
  obtain ⟨taken, s₂, hadvance, h⟩ := bind_eq_ok_iff.1 h
  cases hahead : s.ahead with
  | nil =>
      have hkind : s.next.kind = .endOfInput := by
        rw [Stream.next_kind hs, hahead]
        rfl
      simp only [primaryFrom, hkind] at h
      cases h
  | cons token rest =>
      have hnext : s.next = token := by simp [Stream.next, hahead]
      rw [hnext] at h
      have hne : firstKind s.ahead ≠ .endOfInput := by
        intro heq
        rw [hahead, firstKind_cons] at heq
        simp only [primaryFrom, heq] at h
        cases h
      obtain ⟨htaken, _⟩ := advance_eq_ok hne hadvance
      have htoken : taken = token := by
        have hcons := htaken.ahead
        rw [hahead] at hcons
        exact (List.cons.inj hcons).1.symm
      exact ⟨token, s₂, htoken ▸ htaken, h⟩

section First

variable {token : Token} {e : Expr}

theorem literal_eq_ok {value : Value} (hvalue : token.literal? = some value)
    (hkind : token.kind ≠ .identifier)
    (h : (pure (.literal token.position value) : Reader Expr) s = .ok (e, t)) :
    ∃ ts, s.Taken ts t ∧ DerivedPrimary room (token :: ts) t.ahead e := by
  obtain ⟨rfl, rfl⟩ := pure_eq_ok_iff.1 h
  exact ⟨[], .refl _, .literal hvalue, Nat.zero_le room, fun _ => endsInName_concat [] hkind⟩

theorem now_eq_ok (hkind : token.IsWord .kwNow) (hs : s.Closed)
    (h : primaryFrom inner token s = .ok (e, t)) :
    ∃ ts, s.Taken ts t ∧ DerivedPrimary room (token :: ts) t.ahead e := by
  simp only [primaryFrom, hkind] at h
  obtain ⟨lead, s₁, hread, h⟩ := bind_eq_ok_iff.1 h
  obtain ⟨hlead, hleadKind⟩ := expectSymbol_eq_ok hs hread
  obtain ⟨close, s₂, hread, hpure⟩ := bind_eq_ok_iff.1 h
  obtain ⟨hclose, hcloseKind⟩ := expectSymbol_eq_ok (hlead.closed hs) hread
  obtain ⟨rfl, rfl⟩ := pure_eq_ok_iff.1 hpure
  exact ⟨[lead, close], hlead.trans hclose, .now hkind hleadKind hcloseKind, Nat.zero_le room,
    uncalled_close ([token, lead]) hcloseKind⟩

/-- A function and the arguments behind the opening parenthesis. -/
theorem apply_eq_ok (hinner : Sound inner (Inside room)) {name : String} {lead : Token}
    (hname : token.callee? = some name) (hlead : lead.Is .leftParen) (hs : s.Closed)
    (h : (callArguments inner >>= fun args =>
      pure (.apply token.position name args)) s = .ok (e, t)) :
    ∃ ts, s.Taken ts t ∧ DerivedPrimary room (token :: lead :: ts) t.ahead e := by
  obtain ⟨args, s₁, hargs, hpure⟩ := bind_eq_ok_iff.1 h
  obtain ⟨ts, close, htaken, hclose, d, hd⟩ := callArguments_eq_ok hinner hs hargs
  obtain ⟨rfl, rfl⟩ := pure_eq_ok_iff.1 hpure
  exact ⟨ts ++ [close], htaken, .apply hname hlead d hclose, hd,
    uncalled_close (token :: lead :: ts) hclose⟩

theorem print_eq_ok (hinner : Sound inner (Inside room)) (hkind : token.IsWord .kwPrint)
    (hs : s.Closed) (h : primaryFrom inner token s = .ok (e, t)) :
    ∃ ts, s.Taken ts t ∧ DerivedPrimary room (token :: ts) t.ahead e := by
  simp only [primaryFrom, hkind] at h
  obtain ⟨lead, s₁, hread, h⟩ := bind_eq_ok_iff.1 h
  obtain ⟨hlead, hleadKind⟩ := expectSymbol_eq_ok hs hread
  have hname : token.callee? = some "PRINT" := by
    simp [Token.callee?, hkind]
  obtain ⟨ts, htaken, hderived⟩ := apply_eq_ok hinner hname hleadKind (hlead.closed hs) h
  exact ⟨lead :: ts, hlead.trans htaken, hderived⟩

theorem name_eq_ok (hinner : Sound inner (Inside room)) (hkind : token.IsName)
    (hs : s.Closed) (h : primaryFrom inner token s = .ok (e, t)) :
    ∃ ts, s.Taken ts t ∧ DerivedPrimary room (token :: ts) t.ahead e := by
  simp only [primaryFrom, hkind] at h
  obtain ⟨found, s₁, haccept, hnext⟩ := bind_eq_ok_iff.1 h
  rcases accept_eq_ok hs (by simp) haccept with ⟨rfl, lead, hlead, hleadKind⟩ | ⟨rfl, rfl, hne⟩
  · have hname : token.callee? = some token.lexeme := by
      simp [Token.callee?, hkind]
    obtain ⟨ts, htaken, hderived⟩ := apply_eq_ok hinner hname hleadKind (hlead.closed hs) hnext
    exact ⟨lead :: ts, hlead.trans htaken, hderived⟩
  · obtain ⟨rfl, rfl⟩ := pure_eq_ok_iff.1 hnext
    exact ⟨[], .refl _, .ref hkind, Nat.zero_le room, fun heq => absurd heq hne⟩

theorem tool_eq_ok (hinner : Sound inner (Inside room)) (hkind : token.IsWord .kwCall)
    (hs : s.Closed) (h : primaryFrom inner token s = .ok (e, t)) :
    ∃ ts, s.Taken ts t ∧ DerivedPrimary room (token :: ts) t.ahead e := by
  simp only [primaryFrom, hkind] at h
  obtain ⟨⟨tool, args⟩, s₁, hread, hpure⟩ := bind_eq_ok_iff.1 h
  obtain ⟨name, lead, ts, close, es, htaken, hname, hlead, hclose, rfl, rfl, d, hd⟩ :=
    invocation_eq_ok hinner hs hread
  obtain ⟨rfl, rfl⟩ := pure_eq_ok_iff.1 hpure
  exact ⟨_, htaken, .tool hkind hname hlead d hclose, hd,
    uncalled_close (token :: name :: lead :: ts) hclose⟩

theorem group_eq_ok (hinner : Sound inner (Inside room)) (hkind : token.Is .leftParen)
    (hs : s.Closed) (h : primaryFrom inner token s = .ok (e, t)) :
    ∃ ts, s.Taken ts t ∧ DerivedPrimary room (token :: ts) t.ahead e := by
  simp only [primaryFrom, hkind] at h
  obtain ⟨e', s₁, hread, h⟩ := bind_eq_ok_iff.1 h
  obtain ⟨ts, htaken, d, hd, _⟩ := hinner _ _ _ hs hread
  obtain ⟨close, s₂, hread, hpure⟩ := bind_eq_ok_iff.1 h
  obtain ⟨hclose, hcloseKind⟩ := expectSymbol_eq_ok (htaken.closed hs) hread
  obtain ⟨rfl, rfl⟩ := pure_eq_ok_iff.1 hpure
  exact ⟨ts ++ [close], htaken.trans hclose, .group hkind d hcloseKind, hd,
    uncalled_close (token :: ts) hcloseKind⟩

theorem list_eq_ok (hinner : Sound inner (Inside room)) (hkind : token.Is .leftBracket)
    (hs : s.Closed) (h : primaryFrom inner token s = .ok (e, t)) :
    ∃ ts, s.Taken ts t ∧ DerivedPrimary room (token :: ts) t.ahead e := by
  simp only [primaryFrom, hkind] at h
  obtain ⟨items, s₁, hread, h⟩ := bind_eq_ok_iff.1 h
  obtain ⟨ts, tail, es, htaken, hrow, htail, -, rfl⟩ :=
    separated_eq_ok (fun es e => es ++ [e]) (sound_item hinner) hs hread
  obtain ⟨d, hd⟩ := hrow.items
  obtain ⟨close, s₂, hread, hpure⟩ := bind_eq_ok_iff.1 h
  obtain ⟨hclose, hcloseKind⟩ := expectSymbol_eq_ok (htaken.closed hs) hread
  obtain ⟨rfl, rfl⟩ := pure_eq_ok_iff.1 hpure
  rw [foldl_concat, List.nil_append]
  exact ⟨ts ++ tail ++ [close], htaken.trans hclose, .list hkind d htail hcloseKind, hd,
    uncalled_close (token :: (ts ++ tail)) hcloseKind⟩

theorem object_eq_ok (hinner : Sound inner (Inside room)) (hkind : token.Is .leftBrace)
    (hs : s.Closed) (h : primaryFrom inner token s = .ok (e, t)) :
    ∃ ts, s.Taken ts t ∧ DerivedPrimary room (token :: ts) t.ahead e := by
  simp only [primaryFrom, hkind] at h
  obtain ⟨entries, s₁, hread, h⟩ := bind_eq_ok_iff.1 h
  obtain ⟨ts, tail, es, htaken, hrow, htail, -, rfl⟩ :=
    separated_eq_ok (fun dict (x : String × Expr) => Dict.insert dict x.1 x.2)
      (sound_property hinner) hs hread
  obtain ⟨d, hd⟩ := hrow.entries
  obtain ⟨close, s₂, hread, hpure⟩ := bind_eq_ok_iff.1 h
  obtain ⟨hclose, hcloseKind⟩ := expectSymbol_eq_ok (htaken.closed hs) hread
  obtain ⟨rfl, rfl⟩ := pure_eq_ok_iff.1 hpure
  rw [show es.foldl _ [] = merged es from (merged_eq es).symm]
  exact ⟨ts ++ tail ++ [close], htaken.trans hclose, .object hkind d htail hcloseKind, hd,
    uncalled_close (token :: (ts ++ tail)) hcloseKind⟩

/-- The first token of a primary expression says how its derivation goes on. -/
theorem primaryFrom_eq_ok (hinner : Sound inner (Inside room)) (hs : s.Closed)
    (h : primaryFrom inner token s = .ok (e, t)) :
    ∃ ts, s.Taken ts t ∧ DerivedPrimary room (token :: ts) t.ahead e := by
  cases hkind : token.kind with
  | identifier => exact name_eq_ok hinner hkind hs h
  | number =>
      simp only [primaryFrom, hkind] at h
      cases hn : Number.ofText? token.lexeme with
      | none =>
          rw [hn] at h
          cases h
      | some n =>
          rw [hn] at h
          exact literal_eq_ok (by simp [Token.literal?, hkind, hn]) (by simp [hkind]) h
  | string =>
      simp only [primaryFrom, hkind] at h
      exact literal_eq_ok (by simp [Token.literal?, hkind]) (by simp [hkind]) h
  | keyword word =>
      cases word with
      | kwTrue | kwFalse | kwNull =>
          simp only [primaryFrom, hkind] at h
          exact literal_eq_ok (by simp [Token.literal?, hkind]) (by simp [hkind]) h
      | kwNow => exact now_eq_ok hkind hs h
      | kwPrint => exact print_eq_ok hinner hkind hs h
      | kwCall => exact tool_eq_ok hinner hkind hs h
      | kwLet | kwIf | kwThen | kwElse | kwFor | kwIn | kwDo | kwEnd | kwAnd | kwOr | kwNot =>
          simp only [primaryFrom, hkind] at h
          cases h
  | symbol sign =>
      cases sign with
      | leftParen => exact group_eq_ok hinner hkind hs h
      | leftBracket => exact list_eq_ok hinner hkind hs h
      | leftBrace => exact object_eq_ok hinner hkind hs h
      | assign | equal | notEqual | greater | greaterEqual | less | lessEqual | plus | minus
      | star | slash | percent | rightBrace | rightBracket | rightParen | colon | comma | dot =>
          simp only [primaryFrom, hkind] at h
          cases h
  | endOfInput =>
      simp only [primaryFrom, hkind] at h
      cases h

end First

theorem sound_primary (hinner : Sound inner (Inside room)) :
    Sound (primary inner) (DerivedPrimary room) := by
  intro s t e hs h
  obtain ⟨token, s', htoken, h⟩ := primary_eq_ok hs h
  obtain ⟨ts, hts, hderived⟩ := primaryFrom_eq_ok hinner (htoken.closed hs) h
  exact ⟨token :: ts, htoken.trans hts, hderived⟩

/-- What a round of accesses can do. -/
theorem accessRound_eq_ok (hinner : Sound inner (Inside room)) {a e : Expr} {again : Bool}
    (hs : s.Closed) (h : accessRound room inner a s = .ok ((e, again), t)) :
    (again = false ∧ e = a ∧ t = s ∧ firstKind s.ahead ≠ .symbol .leftBracket ∧
      firstKind s.ahead ≠ .symbol .dot) ∨
    (again = true ∧ ∃ us, us ≠ [] ∧ s.Taken us t ∧
      ∀ ts, ∀ d : Derivation (.accessed a) ts, d.room ≤ room →
        (∃ d : Derivation (.accessed e) (ts ++ us), d.room ≤ room) ∧
          endsInName (ts ++ us) = false) := by
  obtain ⟨kind, s₁, hpeek, hround⟩ := bind_eq_ok_iff.1 h
  obtain ⟨hfirst, rfl⟩ := peekKind_eq_ok hs hpeek
  split at hround
  · -- an index
    obtain ⟨lead, s₂, hread, hround⟩ := bind_eq_ok_iff.1 hround
    obtain ⟨hlead, hleadKind⟩ := advance_eq_ok (by simp [← hfirst]) hread
    have hs₂ := hlead.closed hs
    obtain ⟨b, s₃, hread, hround⟩ := bind_eq_ok_iff.1 hround
    obtain ⟨us, hus, d', hd', _⟩ := hinner _ _ _ hs₂ hread
    obtain ⟨close, s₄, hread, hround⟩ := bind_eq_ok_iff.1 hround
    obtain ⟨hclose, hcloseKind⟩ := expectSymbol_eq_ok (hus.closed hs₂) hread
    obtain ⟨e', s₅, hbounded, hpure⟩ := bind_eq_ok_iff.1 hround
    obtain ⟨rfl, rfl, hheight⟩ := bounded_eq_ok hbounded
    obtain ⟨heq, rfl⟩ := pure_eq_ok_iff.1 hpure
    cases heq
    refine .inr ⟨rfl, lead :: (us ++ [close]), by simp,
      hlead.trans (hus.trans hclose), fun ts d hd => ⟨?_, ?_⟩⟩
    · refine ⟨.index d (hleadKind.trans hfirst.symm) d' hcloseKind, ?_⟩
      simp only [Expr.height] at hheight
      simp only [Derivation.room]
      omega
    · rw [← List.cons_append, ← List.append_assoc]
      apply endsInName_concat
      simp [hcloseKind]
  · -- a member
    obtain ⟨lead, s₂, hread, hround⟩ := bind_eq_ok_iff.1 hround
    obtain ⟨hlead, hleadKind⟩ := advance_eq_ok (by simp [← hfirst]) hread
    obtain ⟨property, s₃, hread, hround⟩ := bind_eq_ok_iff.1 hround
    obtain ⟨name, hname, hnameKind, rfl⟩ := expectName_eq_ok (hlead.closed hs) hread
    obtain ⟨e', s₄, hbounded, hpure⟩ := bind_eq_ok_iff.1 hround
    obtain ⟨rfl, rfl, hheight⟩ := bounded_eq_ok hbounded
    obtain ⟨heq, rfl⟩ := pure_eq_ok_iff.1 hpure
    cases heq
    refine .inr ⟨rfl, [lead, name], by simp, hlead.trans hname, fun ts d hd => ⟨?_, ?_⟩⟩
    · refine ⟨.member d (hleadKind.trans hfirst.symm) hnameKind, ?_⟩
      simp only [Expr.height] at hheight
      simp only [Derivation.room]
      omega
    · exact endsInName_member ts (hleadKind.trans hfirst.symm)
  · next hbracket hdot =>
      obtain ⟨heq, rfl⟩ := pure_eq_ok_iff.1 hround
      cases heq
      exact .inl ⟨rfl, rfl, rfl, fun heq => hbracket (hfirst.trans heq),
        fun heq => hdot (hfirst.trans heq)⟩

/-- Rounds go on with the accesses that were read so far. -/
theorem access_rounds (hinner : Sound inner (Inside room)) {a e : Expr} {ts : List Token}
    (d : Derivation (.accessed a) ts) (hd : d.room ≤ room) (hcall : Uncalled ts s.ahead)
    (hs : s.Closed) (h : loop (accessRound room inner) a s = .ok (e, t)) :
    ∃ us, s.Taken us t ∧ (∃ d : Derivation (.accessed e) (ts ++ us), d.room ≤ room) ∧
      Stops 0 (ts ++ us) t.ahead := by
  refine loop_induction (P := fun s a e t => ∀ ts, ∀ d : Derivation (.accessed a) ts,
    d.room ≤ room → Uncalled ts s.ahead → ∃ us, s.Taken us t ∧
      (∃ d : Derivation (.accessed e) (ts ++ us), d.room ≤ room) ∧ Stops 0 (ts ++ us) t.ahead)
    ?_ ?_ hs h ts d hd hcall
  · intro s a b t hs hround ts d hd hcall
    rcases accessRound_eq_ok hinner hs hround with ⟨_, rfl, rfl, hbracket, hdot⟩ | ⟨hagain, _⟩
    · refine ⟨[], .refl _, ?_⟩
      rw [List.append_nil]
      exact ⟨⟨d, hd⟩, hbracket, hdot, fun l op hop => hop.level_pos, hcall⟩
    · cases hagain
  · intro s a b t hs hround
    rcases accessRound_eq_ok hinner hs hround with ⟨hagain, _⟩ | ⟨_, us, hus, htaken, hnext⟩
    · cases hagain
    · refine ⟨⟨us, hus, htaken⟩, fun e u ih ts d hd hcall => ?_⟩
      obtain ⟨⟨d', hd'⟩, hname⟩ := hnext ts d hd
      obtain ⟨vs, hvs, hderived⟩ := ih _ d' hd' fun _ => hname
      refine ⟨us ++ vs, htaken.trans hvs, ?_⟩
      rw [← List.append_assoc]
      exact hderived

theorem sound_accessed (hinner : Sound inner (Inside room)) :
    Sound (accessed room inner) (Derived room 0) := by
  intro s t e hs h
  obtain ⟨a, s', ha, h⟩ := bind_eq_ok_iff.1 h
  obtain ⟨ts, hts, d, hd, hcall⟩ := sound_primary hinner _ _ _ hs ha
  obtain ⟨us, hus, ⟨d', hd'⟩, hstops⟩ :=
    access_rounds hinner (.primary d) hd hcall (hts.closed hs) h
  exact ⟨ts ++ us, hts.trans hus, .operand d', hd', hstops⟩

/-- The operand of an operator that stands before it. -/
def Deeper (room : Nat) (ts rest : List Token) (e : Expr) : Prop :=
  ∃ d : Derivation (.chain 0 e) ts, d.room < room ∧ Stops 0 ts rest

theorem sound_operandWith {deep : Reader Expr} (hdeep : Sound deep (Deeper room))
    (hinner : Sound inner (Inside room)) :
    Sound (operandWith room deep inner) (Derived room 0) := by
  intro s t e hs h
  obtain ⟨kind, s₁, hpeek, hrest⟩ := bind_eq_ok_iff.1 h
  obtain ⟨hfirst, rfl⟩ := peekKind_eq_ok hs hpeek
  cases hop : UnaryOp.ofKind? kind with
  | none =>
      rw [hop] at hrest
      exact sound_accessed hinner _ _ _ hs hrest
  | some op =>
      have hkindOp : Modifies kind op := modifies_iff.2 hop
      rw [hop] at hrest
      obtain ⟨token, s₂, hread, hrest⟩ := bind_eq_ok_iff.1 hrest
      obtain ⟨htoken, hkind⟩ := advance_eq_ok (hfirst ▸ hkindOp.ne rfl) hread
      obtain ⟨e', s₃, hread, hpure⟩ := bind_eq_ok_iff.1 hrest
      obtain ⟨ts, hts, d, hd, hstops⟩ := hdeep _ _ _ (htoken.closed hs) hread
      obtain ⟨rfl, rfl⟩ := pure_eq_ok_iff.1 hpure
      have hkind : token.kind = kind := hkind.trans hfirst.symm
      refine ⟨token :: ts, htoken.trans hts, .unary (hkind ▸ hkindOp) d, hd, hstops.congr ?_⟩
      exact endsInName_cons (ne_nil_of_opens (d.opens_first rfl)) (hkind ▸ hkindOp.ne rfl)

theorem sound_tooDeep {α : Type} (P : List Token → List Token → α → Prop) :
    Sound tooDeep P := by
  intro s t a _ h
  cases h

theorem sound_expression_succ (h : Sound (operand room) (Derived room 0)) :
    Sound (expression (room + 1)) (Inside (room + 1)) := by
  intro s t e hs hread
  obtain ⟨ts, hts, d, hd, hstops⟩ := sound_chains h loosest s t e hs hread
  exact ⟨ts, hts, d, Nat.lt_succ_of_le hd, hstops⟩

/-- Whatever a reader of operands gives has a derivation that fits into the room. -/
theorem sound_operand (room : Nat) : Sound (operand room) (Derived room 0) := by
  induction room with
  | zero => exact sound_operandWith (sound_tooDeep _) (sound_tooDeep _)
  | succ room ih =>
      apply sound_operandWith _ (sound_expression_succ ih)
      intro s t e hs h
      obtain ⟨ts, hts, d, hd, hstops⟩ := ih s t e hs h
      exact ⟨ts, hts, d, Nat.lt_succ_of_le hd, hstops⟩

/-- Whatever a reader of expressions gives has a derivation that fits into the room. -/
theorem sound_expression (room : Nat) : Sound (expression room) (Inside room) := by
  cases room with
  | zero => exact sound_tooDeep _
  | succ room => exact sound_expression_succ (sound_operand room)

end ToolScript.Grammar
