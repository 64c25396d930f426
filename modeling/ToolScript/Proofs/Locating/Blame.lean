import ToolScript.Proofs.Locating.Tokens

/-!
# Readers blame what they see

A reader keeps the places of its tokens if all nodes of what it makes stand at such places, and
if the token that it blames is at such a place. Readers that are put together from readers that
keep the places keep them too, so the whole grammar does.
-/

namespace ToolScript.Grammar

open Reader

variable {α β : Type} {W : Position → Prop}

/-- All tokens of the stream stand at places as in `W`. -/
structure Stream.Within (W : Position → Prop) (s : Stream) : Prop where
  last : W s.last.position
  ahead : ∀ token ∈ s.ahead, W token.position
  stop : W s.stop.position

theorem Stream.Within.next {s : Stream} (h : s.Within W) : W s.next.position := by
  unfold Stream.next
  cases hahead : s.ahead with
  | nil => exact h.stop
  | cons token rest => exact h.ahead token (by simp [hahead])

theorem Stream.within_ofTokens {tokens : List Token} (hne : tokens ≠ [])
    (h : ∀ token ∈ tokens, W token.position) : (Stream.ofTokens tokens).Within W := by
  have hahead : ∀ token ∈ (Stream.ofTokens tokens).ahead, W token.position :=
    fun token htoken => h token (List.takeWhile_sublist _ |>.subset htoken)
  have hstop : W (Stream.ofTokens tokens).stop.position := by
    simp only [Stream.ofTokens]
    cases hfind : tokens.find? fun token => token.kind = .endOfInput with
    | some stop => exact h stop (List.mem_of_find?_eq_some hfind)
    | none =>
        simp only [List.getLast?_eq_some_getLast hne, Option.map_some, Option.getD_some,
          Option.getD_none, Token.endAt]
        exact h _ (List.getLast_mem hne)
  refine ⟨?_, hahead, hstop⟩
  change W (((Stream.ofTokens tokens).ahead.headD (Stream.ofTokens tokens).stop).position)
  cases hcons : (Stream.ofTokens tokens).ahead with
  | nil => exact hstop
  | cons token rest => exact hahead token (by simp [hcons])

/-- In front of tokens at places as in `W` the reader gives a result as in `Q`, or blames a
token at such a place. -/
structure Keeps (W : Position → Prop) (reader : Reader α) (Q : α → Prop) : Prop where
  gives : ∀ {s t : Stream} {a : α}, s.Within W → reader s = .ok (a, t) → Q a ∧ t.Within W
  blames : ∀ {s : Stream} {fault : Fault}, s.Within W → reader s = .error fault →
    W fault.found.position

namespace Keeps

variable {Q : α → Prop} {R : β → Prop} {reader : Reader α}

theorem pure {a : α} (h : Q a) : Keeps W (Pure.pure a) Q where
  gives hs hread := by
    obtain ⟨rfl, rfl⟩ := pure_eq_ok_iff.1 hread
    exact ⟨h, hs⟩
  blames _ hread := by cases hread

theorem fail (expected : Expectation) : Keeps W (Reader.fail expected) Q where
  gives _ hread := by cases hread
  blames hs hread := by
    cases hread
    exact hs.next

theorem blame {token : Token} (h : W token.position) (expected : Expectation) :
    Keeps W (Reader.blame expected token) Q where
  gives _ hread := by cases hread
  blames _ hread := by
    cases hread
    exact h

theorem bind {f : α → Reader β} (h : Keeps W reader Q) (hf : ∀ a, Q a → Keeps W (f a) R) :
    Keeps W (reader >>= f) R where
  gives hs hread := by
    obtain ⟨a, t, hfirst, hrest⟩ := bind_eq_ok_iff.1 hread
    obtain ⟨ha, ht⟩ := h.gives hs hfirst
    exact (hf a ha).gives ht hrest
  blames {s fault} hs hread := by
    cases hfirst : reader s with
    | error fault' =>
        rw [bind_error hfirst] at hread
        cases hread
        exact h.blames hs hfirst
    | ok result =>
        rw [bind_ok hfirst] at hread
        obtain ⟨ha, ht⟩ := h.gives hs hfirst
        exact (hf result.1 ha).blames ht hread

theorem map {f : α → β} (h : Keeps W reader Q) (hf : ∀ a, Q a → R (f a)) :
    Keeps W (f <$> reader) R :=
  h.bind fun a ha => .pure (hf a ha)

/-- Rounds that keep the places one by one keep them all along. -/
theorem loop {round : α → Reader (α × Bool)}
    (h : ∀ a, Q a → Keeps W (round a) fun result => Q result.1) {a : α} (ha : Q a) :
    Keeps W (Reader.loop round a) Q := by
  -- on the number of tokens ahead: a round is repeated only if it took one
  suffices hloop : ∀ (n : Nat) (a : α) (s : Stream), s.ahead.length = n → Q a → s.Within W →
      (∀ b t, Reader.loop round a s = .ok (b, t) → Q b ∧ t.Within W) ∧
      ∀ fault, Reader.loop round a s = .error fault → W fault.found.position from
    ⟨fun hs hread => (hloop _ a _ rfl ha hs).1 _ _ hread,
      fun hs hread => (hloop _ a _ rfl ha hs).2 _ hread⟩
  intro n
  induction n using Nat.strongRecOn with
  | ind n ih =>
      intro a s hn ha hs
      rw [Reader.loop.eq_def]
      cases hround : round a s with
      | error fault =>
          refine ⟨by simp, fun fault' heq => ?_⟩
          cases heq
          exact (h a ha).blames hs hround
      | ok result =>
          obtain ⟨⟨b, again⟩, t⟩ := result
          obtain ⟨hb, ht⟩ := (h a ha).gives hs hround
          dsimp only
          split
          · next hagain => exact ih _ (hn ▸ hagain.2) b t rfl hb ht
          · exact ⟨fun c u heq => by cases heq; exact ⟨hb, ht⟩, by simp⟩

end Keeps

theorem keeps_peek : Keeps W peek fun token => W token.position where
  gives hs hread := by
    cases hread
    exact ⟨hs.next, hs⟩
  blames _ hread := by cases hread

theorem keeps_peekKind : Keeps W peekKind fun _ => True where
  gives hs hread := by
    cases hread
    exact ⟨trivial, hs⟩
  blames _ hread := by cases hread

theorem keeps_advance : Keeps W advance fun token => W token.position where
  gives {s t token} hs hread := by
    unfold advance at hread
    split at hread
    · cases hread
      exact ⟨hs.last, hs⟩
    · next first rest hahead =>
        cases hread
        have hmem := hs.ahead
        simp only [hahead, List.mem_cons, forall_eq_or_imp] at hmem
        exact ⟨hmem.1, hmem.1, hmem.2, hs.stop⟩
  blames {s fault} _ hread := by
    unfold advance at hread
    split at hread <;> cases hread

theorem keeps_accept (kind : Token.Kind) : Keeps W (accept kind) fun _ => True := by
  refine keeps_peekKind.bind fun found _ => ?_
  split
  · exact keeps_advance.bind fun _ _ => .pure trivial
  · exact .pure trivial

theorem keeps_expect (kind : Token.Kind) (expected : Expectation) :
    Keeps W (expect kind expected) fun token => W token.position := by
  refine keeps_peekKind.bind fun found _ => ?_
  split
  · exact keeps_advance
  · exact .fail expected

theorem keeps_expectName (expected : Expectation) :
    Keeps W (expectName expected) fun _ => True :=
  (keeps_expect _ expected).bind fun _ _ => .pure trivial

theorem keeps_separated {Q : α → Prop} {item : α → Reader α}
    (h : ∀ a, Q a → Keeps W (item a) Q) (close : Symbol) (trailing : Bool) {a : α} (ha : Q a) :
    Keeps W (separated close trailing item a) Q := by
  refine keeps_peekKind.bind fun found _ => ?_
  split
  · exact .pure ha
  · refine .loop (fun b hb => ?_) ha
    refine (h b hb).bind fun c hc => (keeps_accept _).bind fun comma _ => ?_
    split
    · exact keeps_peekKind.bind fun _ _ => .pure hc
    · exact .pure hc

section Expressions

variable {operand expression inner : Reader Expr}

theorem keeps_bounded (room : Nat) {e : Expr} (h : e.Within W) :
    Keeps W (bounded room e) (Expr.Within W) := by
  have hget : Keeps W (get : Reader Stream) (Stream.Within W) :=
    ⟨fun hs hread => by cases hread; exact ⟨hs, hs⟩, fun _ hread => by cases hread⟩
  unfold bounded
  split
  · exact .pure h
  · exact hget.bind fun s hs => .blame hs.last _

theorem keeps_chains (h : Keeps W operand (Expr.Within W)) (room level : Nat) :
    Keeps W (chains room operand level) (Expr.Within W) := by
  induction level with
  | zero => exact h
  | succ level ih =>
      refine ih.bind fun first hfirst => .loop (fun left hleft => ?_) hfirst
      have hoperator : Keeps W (operator? (level + 1)) fun _ => True :=
        keeps_peekKind.bind fun _ _ => .pure trivial
      refine hoperator.bind fun op _ => ?_
      split
      · exact .pure hleft
      · exact keeps_advance.bind fun token htoken => ih.bind fun right hright =>
          (keeps_bounded room (e := .binary token.position _ left right)
            ⟨htoken, hleft, hright⟩).bind fun _ he => .pure he

/-- A name, a colon and an expression are put to the entries already read. -/
theorem keeps_entry {name : Reader String} (hname : Keeps W name fun _ => True)
    (h : Keeps W expression (Expr.Within W)) (expected : Expectation) {entries : Dict Expr}
    (hentries : Expr.WithinEntries W entries) :
    Keeps W (do
      let key ← name
      let _ ← expectSymbol .colon expected
      let value ← expression
      Pure.pure (Dict.insert entries key value)) (Expr.WithinEntries W) :=
  hname.bind fun key _ => (keeps_expect _ expected).bind fun _ _ => h.bind fun _ hvalue =>
    .pure (hentries.insert hvalue key)

theorem keeps_invocation (h : Keeps W expression (Expr.Within W)) :
    Keeps W (invocation expression) fun result => Expr.WithinEntries W result.2 := by
  refine (keeps_expectName _).bind fun tool _ => (keeps_expect _ _).bind fun _ _ => ?_
  refine (keeps_separated (fun args hargs => ?_) _ _ trivial).bind fun args hargs =>
    (keeps_expect _ _).bind fun _ _ => .pure hargs
  exact keeps_entry (keeps_expectName _) h _ hargs

theorem keeps_items (h : Keeps W expression (Expr.Within W)) (close : Symbol)
    (trailing : Bool) :
    Keeps W (separated close trailing (item expression) []) (Expr.WithinItems W) :=
  keeps_separated (fun _ hitems => h.bind fun _ he => .pure (hitems.concat he)) close trailing
    trivial

theorem keeps_callArguments (h : Keeps W expression (Expr.Within W)) :
    Keeps W (callArguments expression) (Expr.WithinItems W) :=
  (keeps_items h _ _).bind fun _ hargs => (keeps_expect _ _).bind fun _ _ => .pure hargs

theorem keeps_propertyName : Keeps W propertyName fun _ => True := by
  refine keeps_peekKind.bind fun kind _ => ?_
  split
  · exact keeps_advance.bind fun _ _ => .pure trivial
  · exact keeps_advance.bind fun _ _ => .pure trivial
  · exact .fail _

theorem keeps_primaryFrom (h : Keeps W expression (Expr.Within W)) {token : Token}
    (htoken : W token.position) : Keeps W (primaryFrom expression token) (Expr.Within W) := by
  unfold primaryFrom
  split
  · exact .pure htoken
  · exact .pure htoken
  · exact .pure htoken
  · split
    · exact .pure htoken
    · exact .blame htoken _
  · exact .pure htoken
  · exact (keeps_expect _ _).bind fun _ _ => (keeps_expect _ _).bind fun _ _ =>
      .pure ⟨htoken, trivial⟩
  · exact (keeps_expect _ _).bind fun _ _ => (keeps_callArguments h).bind fun _ hargs =>
      .pure ⟨htoken, hargs⟩
  · refine (keeps_accept _).bind fun called _ => ?_
    split
    · exact (keeps_callArguments h).bind fun _ hargs => .pure ⟨htoken, hargs⟩
    · exact .pure htoken
  · exact (keeps_invocation h).bind fun _ hargs => .pure ⟨htoken, hargs⟩
  · exact h.bind fun _ he => (keeps_expect _ _).bind fun _ _ => .pure he
  · exact (keeps_items h _ _).bind fun _ hitems => (keeps_expect _ _).bind fun _ _ =>
      .pure ⟨htoken, hitems⟩
  · refine (keeps_separated (fun entries hentries => ?_) _ _ trivial).bind fun _ hentries =>
      (keeps_expect _ _).bind fun _ _ => .pure ⟨htoken, hentries⟩
    exact keeps_entry keeps_propertyName h _ hentries
  · exact .blame htoken _
  · exact .blame htoken _

theorem keeps_accessed (h : Keeps W expression (Expr.Within W)) (room : Nat) :
    Keeps W (accessed room expression) (Expr.Within W) := by
  have hprimary : Keeps W (primary expression) (Expr.Within W) :=
    keeps_peek.bind fun token htoken => keeps_advance.bind fun _ _ => keeps_primaryFrom h htoken
  refine hprimary.bind fun first hfirst => .loop (fun subject hsubject => ?_) hfirst
  refine keeps_peekKind.bind fun kind _ => ?_
  split
  · exact keeps_advance.bind fun token htoken => h.bind fun place hplace =>
      (keeps_expect _ _).bind fun _ _ =>
        (keeps_bounded room (e := .index token.position subject place)
          ⟨htoken, hsubject, hplace⟩).bind fun _ he => .pure he
  · exact keeps_advance.bind fun token htoken => (keeps_expectName _).bind fun property _ =>
      (keeps_bounded room (e := .member token.position subject property)
        ⟨htoken, hsubject⟩).bind fun _ he => .pure he
  · exact .pure hsubject

theorem keeps_operandWith (hinner : Keeps W inner (Expr.Within W))
    (h : Keeps W expression (Expr.Within W)) (room : Nat) :
    Keeps W (operandWith room inner expression) (Expr.Within W) := by
  refine keeps_peekKind.bind fun kind _ => ?_
  split
  · exact keeps_advance.bind fun token htoken => hinner.bind fun e he => .pure ⟨htoken, he⟩
  · exact keeps_accessed h room

theorem keeps_operand (room : Nat) : Keeps W (Grammar.operand room) (Expr.Within W) := by
  induction room with
  | zero => exact keeps_operandWith (.fail _) (.fail _) 0
  | succ room ih => exact keeps_operandWith ih (keeps_chains ih room loosest) (room + 1)

theorem keeps_expression (room : Nat) : Keeps W (Grammar.expression room) (Expr.Within W) := by
  cases room with
  | zero => exact .fail _
  | succ room => exact keeps_chains (keeps_operand room) room loosest

theorem keeps_wholeExpression : Keeps W wholeExpression (Expr.Within W) := by
  refine (keeps_expression maxNesting).bind fun e he => keeps_peekKind.bind fun kind _ => ?_
  split
  · exact .pure he
  · exact .fail _

end Expressions

section Statements

variable {statement : Reader Stmt} {expression : Reader Expr}

theorem keeps_follow (h : Keeps W statement (Stmt.Within W)) {stmts : List Stmt}
    (hstmts : Stmt.WithinBlock W stmts) :
    Keeps W (follow statement stmts) fun result => Stmt.WithinBlock W result.1 :=
  h.bind fun _ hstmt => .pure (hstmts.concat hstmt)

theorem keeps_block (h : Keeps W statement (Stmt.Within W)) (kind : Block) :
    Keeps W (block statement kind) (Stmt.WithinBlock W) := by
  refine .loop (fun stmts hstmts => ?_) trivial
  refine keeps_peekKind.bind fun found _ => ?_
  split
  · split
    · exact .pure hstmts
    · exact keeps_follow h hstmts
  · exact .fail _
  · exact keeps_follow h hstmts

theorem keeps_statementWith {block : Block → Reader (List Stmt)}
    (h : Keeps W expression (Expr.Within W))
    (hblock : ∀ kind, Keeps W (block kind) (Stmt.WithinBlock W)) :
    Keeps W (statementWith expression block) (Stmt.Within W) := by
  refine keeps_peekKind.bind fun kind _ => ?_
  split
  · exact keeps_advance.bind fun _ _ => (keeps_expectName _).bind fun _ _ =>
      (keeps_expect _ _).bind fun _ _ => h.bind fun _ he => .pure he
  · exact keeps_advance.bind fun _ htoken => (keeps_invocation h).bind fun _ hargs =>
      .pure ⟨htoken, hargs⟩
  · refine keeps_advance.bind fun token _ => h.bind fun e he => (keeps_expect _ _).bind fun _ _ =>
      (hblock _).bind fun yes hyes => (keeps_accept _).bind fun found _ => ?_
    have hend (no : Option (List Stmt)) (hno : ∀ stmts ∈ no, Stmt.WithinBlock W stmts) :
        Keeps W (do
          let _ ← expectKeyword .kwEnd
          Pure.pure (Stmt.branch token.position e yes no)) (Stmt.Within W) := by
      refine (keeps_expect _ _).bind fun _ _ => .pure ?_
      cases no with
      | none => exact ⟨he, hyes⟩
      | some no => exact ⟨he, hyes, hno no rfl⟩
    split
    · refine ((hblock .no).map (R := fun no => ∀ stmts ∈ no, Stmt.WithinBlock W stmts) ?_).bind hend
      rintro no hno _ ⟨⟩
      exact hno
    · exact hend none (by simp)
  · exact keeps_advance.bind fun _ _ => (keeps_expectName _).bind fun _ _ =>
      (keeps_expect _ _).bind fun _ _ => h.bind fun _ he => (keeps_expect _ _).bind fun _ _ =>
        (hblock _).bind fun _ hbody => (keeps_expect _ _).bind fun _ _ => .pure ⟨he, hbody⟩
  · exact h.bind fun _ he => .pure he

theorem keeps_statement (room : Nat) : Keeps W (Grammar.statement room) (Stmt.Within W) := by
  induction room with
  | zero => exact keeps_statementWith (keeps_expression 0) fun _ => .fail _
  | succ room ih => exact keeps_statementWith (keeps_expression _) (keeps_block ih)

theorem keeps_statements : Keeps W statements (Stmt.WithinBlock W) := by
  refine .loop (fun stmts hstmts => ?_) trivial
  refine keeps_peekKind.bind fun kind _ => ?_
  split
  · exact .pure hstmts
  · exact keeps_follow (keeps_statement maxNesting) hstmts

end Statements

end ToolScript.Grammar
