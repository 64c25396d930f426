import ToolScript.Proofs.Grammar.Recognition

/-!
# Faults are decided by the tokens in front of them

A reader takes some tokens and sees one more. It is decided if nothing else counts: wherever the
same tokens follow, up to the one that it sees last, it gives the same result, or blames that last
one with the same words. Only complaints about the nesting are left out, since they blame the token
taken last when the next one has already been seen. Readers that are put together from decided
readers are decided, so the whole grammar is.
-/

namespace ToolScript

namespace Grammar

open Reader

variable {α β : Type}

namespace Stream

/-- The stream ends in an end of input, and there is none before. -/
structure Ordered (s : Stream) : Prop where
  closed : s.Closed
  ahead : ∀ token ∈ s.ahead, token.kind ≠ .endOfInput

/-- The tokens `front` were taken on the way from `s` to `t`, so that their last one is the token
that `t` has taken last. -/
structure Past (s : Stream) (front : List Token) (t : Stream) : Prop extends s.Taken front t where
  last : t.last = front.getLastD s.last

/-- The stream `u` goes as `s` does on its way to some stream with `next` in front of it; `v` is
the stream that `u` comes to. -/
structure Like (s : Stream) (front : List Token) (next : Token) (u v : Stream) : Prop where
  ordered : u.Ordered
  last : u.last = s.last
  past : u.Past front v
  next : v.next = next

variable {s t u v w : Stream} {front more : List Token}

theorem Past.refl (s : Stream) : s.Past [] s :=
  ⟨.refl s, rfl⟩

theorem Past.eq_of_nil (h : s.Past [] t) : t = s := by
  obtain ⟨⟨hahead, hstop⟩, hlast⟩ := h
  cases s
  cases t
  simp_all

theorem Past.trans (h : s.Past front t) (h' : t.Past more u) : s.Past (front ++ more) u where
  toTaken := h.toTaken.trans h'.toTaken
  last := by
    rw [h'.last, h.last]
    simp [List.getLast?_append, Option.getD_or]

theorem Past.ordered (h : s.Past front t) (hs : s.Ordered) : t.Ordered where
  closed := h.closed hs.closed
  ahead token htoken := hs.ahead token (h.ahead ▸ List.mem_append_right _ htoken)

/-- What a stream has in front of it is what lies on its way, or else what the way leads to. -/
theorem Past.next_eq (h : s.Past front t) : s.next = front.headD t.next := by
  unfold Stream.next
  rw [h.ahead, h.stop]
  cases front <;> rfl

theorem Past.length_lt_iff (h : s.Past front t) :
    t.ahead.length < s.ahead.length ↔ front ≠ [] := by
  rw [h.ahead, List.length_append, ← List.length_pos_iff]
  omega

theorem Like.next_eq (h : s.Past front t) (h' : s.Like front t.next u v) : u.next = s.next := by
  rw [h'.past.next_eq, h'.next, h.next_eq]

/-- A way in two parts is gone alike part by part. -/
theorem Like.split (h : s.Past front t) (h' : t.Past more w)
    (hlike : s.Like (front ++ more) w.next u v) :
    ∃ middle, s.Like front t.next u middle ∧ t.Like more w.next middle v := by
  obtain ⟨hordered, hlast, ⟨⟨hahead, hstop⟩, hend⟩, hnext⟩ := hlike
  rw [List.append_assoc] at hahead
  let middle : Stream := ⟨front.getLastD u.last, more ++ v.ahead, u.stop⟩
  have hfirst : u.Past front middle := ⟨⟨hahead, rfl⟩, rfl⟩
  have hsecond : middle.Past more v := by
    refine ⟨⟨rfl, hstop⟩, hend.trans ?_⟩
    simp [middle, List.getLast?_append, Option.getD_or]
  refine ⟨middle, ⟨hordered, hlast, hfirst, ?_⟩, hfirst.ordered hordered, ?_, hsecond, hnext⟩
  · rw [hsecond.next_eq, hnext, h'.next_eq]
  · rw [h.last, ← hlast]

end Stream

/-- Whatever the reader gives or blames on the stream is settled by the tokens up to the next
one. -/
structure DecidedAt (reader : Reader α) (s : Stream) : Prop where
  gives : ∀ {t : Stream} {a : α}, reader s = .ok (a, t) → ∃ front, s.Past front t ∧
    ∀ {u v : Stream}, s.Like front t.next u v → reader u = .ok (a, v)
  blames : ∀ {fault : Fault}, reader s = .error fault → fault.expected ≠ .lessNesting →
    ∃ front t, s.Past front t ∧ fault.found = t.next ∧
      ∀ {u v : Stream}, s.Like front t.next u v → reader u = .error fault

/-- The reader is decided on all streams. -/
def Decided (reader : Reader α) : Prop :=
  ∀ s : Stream, s.Ordered → DecidedAt reader s

namespace Decided

variable {reader : Reader α}

theorem pure (a : α) : Decided (Pure.pure a : Reader α) := by
  refine fun s _ => ⟨fun hread => ?_, fun hread => by cases hread⟩
  obtain ⟨rfl, rfl⟩ := pure_eq_ok_iff.1 hread
  refine ⟨[], .refl _, fun hlike => ?_⟩
  rw [hlike.past.eq_of_nil]
  rfl

theorem fail (expected : Expectation) : Decided (Reader.fail expected : Reader α) := by
  refine fun s _ => ⟨fun hread => ?_, fun hread _ => ?_⟩
  · cases hread
  · cases hread
    refine ⟨[], s, .refl s, rfl, fun hlike => ?_⟩
    rw [← hlike.next_eq (.refl s)]
    rfl

theorem bind {f : α → Reader β} (h : Decided reader) (hf : ∀ a, Decided (f a)) :
    Decided (reader >>= f) := by
  refine fun s hs => ⟨fun hread => ?_, fun hread hdeep => ?_⟩
  · obtain ⟨a, t, hfirst, hrest⟩ := bind_eq_ok_iff.1 hread
    obtain ⟨front, hpast, hlike⟩ := (h s hs).gives hfirst
    obtain ⟨more, hpast', hlike'⟩ := (hf a t (hpast.ordered hs)).gives hrest
    refine ⟨front ++ more, hpast.trans hpast', fun hsame => ?_⟩
    obtain ⟨middle, hto, hfrom⟩ := hsame.split hpast hpast'
    rw [bind_ok (hlike hto), hlike' hfrom]
  · cases hfirst : reader s with
    | error fault' =>
        rw [bind_error hfirst] at hread
        cases hread
        obtain ⟨front, t, hpast, hfound, hlike⟩ := (h s hs).blames hfirst hdeep
        exact ⟨front, t, hpast, hfound, fun hsame => bind_error (hlike hsame)⟩
    | ok result =>
        rw [bind_ok hfirst] at hread
        obtain ⟨front, hpast, hlike⟩ := (h s hs).gives hfirst
        obtain ⟨more, w, hpast', hfound, hlike'⟩ :=
          (hf result.1 _ (hpast.ordered hs)).blames hread hdeep
        refine ⟨front ++ more, w, hpast.trans hpast', hfound, fun hsame => ?_⟩
        obtain ⟨middle, hto, hfrom⟩ := hsame.split hpast hpast'
        rw [bind_ok (hlike hto), hlike' hfrom]

theorem map (f : α → β) (h : Decided reader) : Decided (f <$> reader) :=
  h.bind fun a => .pure (f a)

section Loop

variable {round : α → Reader (α × Bool)} {a b : α} {again : Bool} {s t : Stream}

/-- A loop does on a stream that goes alike what its round does and what comes then. -/
theorem loop_like {u v : Stream} {front : List Token} {next : Token}
    (hround : round a u = .ok ((b, again), v)) (h : s.Past front t)
    (hlike : s.Like front next u v) : Reader.loop round a u =
      if again ∧ t.ahead.length < s.ahead.length then Reader.loop round b v else .ok (b, v) := by
  rw [Reader.loop, hround]
  simp only [hlike.past.length_lt_iff, h.length_lt_iff]

/-- The last round decides the loop. -/
theorem loop_last (h : DecidedAt (round a) s) (hround : round a s = .ok ((b, again), t))
    (hlast : ¬(again ∧ t.ahead.length < s.ahead.length)) : DecidedAt (Reader.loop round a) s := by
  obtain ⟨front, hpast, hlike⟩ := h.gives hround
  have hloop : Reader.loop round a s = .ok (b, t) := by
    rw [Reader.loop, hround]
    exact if_neg hlast
  refine ⟨fun hread => ?_, fun hread => ?_⟩
  · cases hloop.symm.trans hread
    exact ⟨front, hpast, fun hsame =>
      (loop_like (hlike hsame) hpast hsame).trans (if_neg hlast)⟩
  · cases hloop.symm.trans hread

/-- A round that is not the last leaves it to the rounds behind it. -/
theorem loop_next (h : DecidedAt (round a) s) (hround : round a s = .ok ((b, again), t))
    (hmore : again ∧ t.ahead.length < s.ahead.length) (hrest : DecidedAt (Reader.loop round b) t) :
    DecidedAt (Reader.loop round a) s := by
  obtain ⟨front, hpast, hlike⟩ := h.gives hround
  have hloop : Reader.loop round a s = Reader.loop round b t := by
    rw [Reader.loop, hround]
    exact if_pos hmore
  have hstep {more : List Token} {u v w : Stream} (hpast' : t.Past more w)
      (hsame : s.Like (front ++ more) w.next u v) :
      ∃ middle, t.Like more w.next middle v ∧
        Reader.loop round a u = Reader.loop round b middle := by
    obtain ⟨middle, hto, hfrom⟩ := hsame.split hpast hpast'
    exact ⟨middle, hfrom, (loop_like (hlike hto) hpast hto).trans (if_pos hmore)⟩
  refine ⟨fun hread => ?_, fun hread hdeep => ?_⟩
  · obtain ⟨more, hpast', hlike'⟩ := hrest.gives (hloop.symm.trans hread)
    refine ⟨front ++ more, hpast.trans hpast', fun hsame => ?_⟩
    obtain ⟨middle, hfrom, heq⟩ := hstep hpast' hsame
    rw [heq, hlike' hfrom]
  · obtain ⟨more, w, hpast', hfound, hlike'⟩ := hrest.blames (hloop.symm.trans hread) hdeep
    refine ⟨front ++ more, w, hpast.trans hpast', hfound, fun hsame => ?_⟩
    obtain ⟨middle, hfrom, heq⟩ := hstep hpast' hsame
    rw [heq, hlike' hfrom]

/-- Rounds that are decided one by one are decided all along. -/
theorem loop (h : ∀ a, Decided (round a)) (a : α) : Decided (Reader.loop round a) := by
  intro s
  -- on the number of tokens ahead: a round is repeated only if it took one
  induction hn : s.ahead.length using Nat.strongRecOn generalizing a s with
  | ind n ih =>
      intro hs
      cases hround : round a s with
      | error fault =>
          refine ⟨fun hread => ?_, fun hread hdeep => ?_⟩
          · cases (loop_error hround).symm.trans hread
          · cases (loop_error hround).symm.trans hread
            obtain ⟨front, t, hpast, hfound, hlike⟩ := (h a s hs).blames hround hdeep
            exact ⟨front, t, hpast, hfound, fun hsame => loop_error (hlike hsame)⟩
      | ok result =>
          obtain ⟨⟨b, again⟩, t⟩ := result
          by_cases hmore : again ∧ t.ahead.length < s.ahead.length
          · obtain ⟨front, hpast, -⟩ := (h a s hs).gives hround
            exact loop_next (h a s hs) hround hmore
              (ih _ (hn ▸ hmore.2) b t rfl (hpast.ordered hs))
          · exact loop_last (h a s hs) hround hmore

end Loop

end Decided

theorem decided_peekKind : Decided peekKind := by
  refine fun s _ => ⟨fun hread => ?_, fun hread => by cases hread⟩
  cases hread
  refine ⟨[], .refl s, fun {u v} hlike => ?_⟩
  rw [hlike.past.eq_of_nil, ← hlike.next_eq (.refl s)]
  rfl

theorem decided_advance : Decided advance := by
  refine fun s hs => ⟨fun {t token} hread => ?_, fun hread => ?_⟩
  · unfold advance at hread
    split at hread
    · next hahead =>
        cases hread
        refine ⟨[], .refl s, fun {u v} hlike => ?_⟩
        -- only the end of input is of its kind, so the other stream is at its end too
        have hend : u.next.kind = .endOfInput := by
          rw [hlike.next_eq (.refl s), Stream.next_kind hs.closed, hahead]
          rfl
        rw [hlike.past.eq_of_nil, ← hlike.last]
        unfold advance
        cases hu : u.ahead with
        | nil => rfl
        | cons token rest =>
            have hkind := hlike.ordered.ahead token (by simp [hu])
            rw [Stream.next_kind hlike.ordered.closed, hu] at hend
            exact absurd hend hkind
    · next first rest hahead =>
        cases hread
        refine ⟨[token], ⟨⟨hahead, rfl⟩, rfl⟩, fun {u v} hlike => ?_⟩
        obtain ⟨⟨hu, hstop⟩, hlast⟩ := hlike.past
        unfold advance
        rw [hu]
        cases v
        simp_all
  · unfold advance at hread
    split at hread <;> cases hread

theorem decided_accept (kind : Token.Kind) : Decided (accept kind) := by
  refine decided_peekKind.bind fun found => ?_
  split
  · exact decided_advance.bind fun _ => .pure true
  · exact .pure false

theorem decided_expect (kind : Token.Kind) (expected : Expectation) :
    Decided (expect kind expected) := by
  refine decided_peekKind.bind fun found => ?_
  split
  · exact decided_advance
  · exact .fail expected

theorem decided_expectName (expected : Expectation) : Decided (expectName expected) :=
  (decided_expect _ expected).bind fun _ => .pure _

theorem decided_separated {item : α → Reader α} (h : ∀ a, Decided (item a)) (close : Symbol)
    (trailing : Bool) (a : α) : Decided (separated close trailing item a) := by
  refine decided_peekKind.bind fun found => ?_
  split
  · exact .pure a
  · refine .loop (fun b => (h b).bind fun c => (decided_accept _).bind fun comma => ?_) a
    split
    · exact decided_peekKind.bind fun _ => .pure _
    · exact .pure _

section Expressions

variable {operand expression inner : Reader Expr}

theorem decided_bounded (room : Nat) (e : Expr) : Decided (bounded room e) := by
  unfold bounded
  split
  · exact .pure e
  · refine fun s _ => ⟨fun hread => ?_, fun hread hdeep => ?_⟩
    · cases hread
    · cases hread
      exact absurd rfl hdeep

theorem decided_chains (h : Decided operand) (room level : Nat) :
    Decided (chains room operand level) := by
  induction level with
  | zero => exact h
  | succ level ih =>
      refine ih.bind fun first => .loop (fun left => ?_) first
      refine (decided_peekKind.bind fun _ => .pure _).bind fun op => ?_
      split
      · exact .pure _
      · exact decided_advance.bind fun _ => ih.bind fun _ => (decided_bounded room _).bind fun _ =>
          .pure _

theorem decided_argument (h : Decided expression) (args : Dict Expr) :
    Decided (argument expression args) :=
  (decided_expectName _).bind fun _ => (decided_expect _ _).bind fun _ => h.bind fun _ => .pure _

theorem decided_invocation (h : Decided expression) : Decided (invocation expression) :=
  (decided_expectName _).bind fun _ => (decided_expect _ _).bind fun _ =>
    (decided_separated (decided_argument h) _ _ _).bind fun _ =>
      (decided_expect _ _).bind fun _ => .pure _

theorem decided_items (h : Decided expression) (close : Symbol) (trailing : Bool) :
    Decided (separated close trailing (item expression) []) :=
  decided_separated (fun _ => h.bind fun _ => .pure _) close trailing []

theorem decided_callArguments (h : Decided expression) : Decided (callArguments expression) :=
  (decided_items h _ _).bind fun _ => (decided_expect _ _).bind fun _ => .pure _

theorem decided_property (h : Decided expression) (entries : Dict Expr) :
    Decided (property expression entries) := by
  have hname : Decided propertyName := by
    refine decided_peekKind.bind fun kind => ?_
    split
    · exact decided_advance.bind fun _ => .pure _
    · exact decided_advance.bind fun _ => .pure _
    · exact .fail _
  exact hname.bind fun _ => (decided_expect _ _).bind fun _ => h.bind fun _ => .pure _

/-- What follows a first token is decided, unless that token itself is to blame. -/
theorem decided_primaryFrom (h : Decided expression) (token : Token) :
    Decided (primaryFrom expression token) ∨
      ∃ expected, primaryFrom expression token = blame expected token := by
  unfold primaryFrom
  split
  · exact .inl (.pure _)
  · exact .inl (.pure _)
  · exact .inl (.pure _)
  · split
    · exact .inl (.pure _)
    · exact .inr ⟨_, rfl⟩
  · exact .inl (.pure _)
  · exact .inl ((decided_expect _ _).bind fun _ => (decided_expect _ _).bind fun _ => .pure _)
  · exact .inl ((decided_expect _ _).bind fun _ => (decided_callArguments h).bind fun _ => .pure _)
  · refine .inl ((decided_accept _).bind fun called => ?_)
    split
    · exact (decided_callArguments h).bind fun _ => .pure _
    · exact .pure _
  · exact .inl ((decided_invocation h).bind fun _ => .pure _)
  · exact .inl (h.bind fun _ => (decided_expect _ _).bind fun _ => .pure _)
  · exact .inl ((decided_items h _ _).bind fun _ => (decided_expect _ _).bind fun _ => .pure _)
  · exact .inl ((decided_separated (decided_property h) _ _ _).bind fun _ =>
      (decided_expect _ _).bind fun _ => .pure _)
  · exact .inr ⟨_, rfl⟩
  · exact .inr ⟨_, rfl⟩

/-- The token that cannot begin an expression is blamed when it has been taken, but nothing behind
it has been seen. -/
theorem decided_primary (h : Decided expression) : Decided (primary expression) := by
  have hprimary (s : Stream) : primary expression s =
      (advance >>= fun _ => primaryFrom expression s.next) s := rfl
  have hlater (token : Token) (hfrom : Decided (primaryFrom expression token)) :
      Decided (advance >>= fun _ => primaryFrom expression token) :=
    decided_advance.bind fun _ => hfrom
  have hblame {s : Stream} {expected : Expectation}
      (hfrom : primaryFrom expression s.next = blame expected s.next) :
      primary expression s = .error ⟨expected, s.next⟩ := by
    obtain ⟨token, t, hadvance⟩ : ∃ token t, advance s = .ok (token, t) := by
      unfold advance
      split <;> exact ⟨_, _, rfl⟩
    rw [hprimary, bind_ok hadvance, hfrom]
    rfl
  intro s hs
  rcases decided_primaryFrom h s.next with hfrom | ⟨expected, hfrom⟩
  · have hdecided := hlater s.next hfrom s hs
    refine ⟨fun hread => ?_, fun hread hdeep => ?_⟩
    · obtain ⟨front, hpast, hlike⟩ := hdecided.gives hread
      refine ⟨front, hpast, fun hsame => ?_⟩
      rw [hprimary, hsame.next_eq hpast, hlike hsame]
    · obtain ⟨front, t, hpast, hfound, hlike⟩ := hdecided.blames hread hdeep
      refine ⟨front, t, hpast, hfound, fun hsame => ?_⟩
      rw [hprimary, hsame.next_eq hpast, hlike hsame]
  · refine ⟨fun hread => ?_, fun hread _ => ?_⟩
    · cases (hblame hfrom).symm.trans hread
    · cases (hblame hfrom).symm.trans hread
      refine ⟨[], s, .refl s, rfl, fun {u v} hsame => ?_⟩
      have hnext := hsame.next_eq (.refl s)
      rw [← hnext] at hfrom ⊢
      exact hblame hfrom

theorem decided_accessed (h : Decided expression) (room : Nat) :
    Decided (accessed room expression) := by
  refine (decided_primary h).bind fun first => .loop (fun subject => ?_) first
  refine decided_peekKind.bind fun kind => ?_
  split
  · exact decided_advance.bind fun _ => h.bind fun _ => (decided_expect _ _).bind fun _ =>
      (decided_bounded room _).bind fun _ => .pure _
  · exact decided_advance.bind fun _ => (decided_expectName _).bind fun _ =>
      (decided_bounded room _).bind fun _ => .pure _
  · exact .pure _

theorem decided_operandWith (hinner : Decided inner) (h : Decided expression) (room : Nat) :
    Decided (operandWith room inner expression) := by
  refine decided_peekKind.bind fun kind => ?_
  split
  · exact decided_advance.bind fun _ => hinner.bind fun _ => .pure _
  · exact decided_accessed h room

theorem decided_operand (room : Nat) : Decided (Grammar.operand room) := by
  induction room with
  | zero => exact decided_operandWith (.fail _) (.fail _) 0
  | succ room ih => exact decided_operandWith ih (decided_chains ih room loosest) (room + 1)

theorem decided_expression (room : Nat) : Decided (Grammar.expression room) := by
  cases room with
  | zero => exact .fail _
  | succ room => exact decided_chains (decided_operand room) room loosest

end Expressions

section Statements

variable {statement : Reader Stmt} {expression : Reader Expr}

theorem decided_follow (h : Decided statement) (stmts : List Stmt) :
    Decided (follow statement stmts) :=
  h.bind fun _ => .pure _

theorem decided_block (h : Decided statement) (kind : Block) : Decided (block statement kind) := by
  refine .loop (fun stmts => decided_peekKind.bind fun found => ?_) []
  split
  · split
    · exact .pure _
    · exact decided_follow h stmts
  · exact .fail _
  · exact decided_follow h stmts

theorem decided_statementWith {block : Block → Reader (List Stmt)} (h : Decided expression)
    (hblock : ∀ kind, Decided (block kind)) : Decided (statementWith expression block) := by
  refine decided_peekKind.bind fun kind => ?_
  split
  · exact decided_advance.bind fun _ => (decided_expectName _).bind fun _ =>
      (decided_expect _ _).bind fun _ => h.bind fun _ => .pure _
  · exact decided_advance.bind fun _ => (decided_invocation h).bind fun _ => .pure _
  · refine decided_advance.bind fun _ => h.bind fun _ => (decided_expect _ _).bind fun _ =>
      (hblock _).bind fun _ => (decided_accept _).bind fun found => ?_
    split
    · exact ((hblock _).map some).bind fun _ => (decided_expect _ _).bind fun _ => .pure _
    · exact (Decided.pure none).bind fun _ => (decided_expect _ _).bind fun _ => .pure _
  · exact decided_advance.bind fun _ => (decided_expectName _).bind fun _ =>
      (decided_expect _ _).bind fun _ => h.bind fun _ => (decided_expect _ _).bind fun _ =>
        (hblock _).bind fun _ => (decided_expect _ _).bind fun _ => .pure _
  · exact h.bind fun _ => .pure _

theorem decided_statement (room : Nat) : Decided (Grammar.statement room) := by
  induction room with
  | zero => exact decided_statementWith (decided_expression 0) fun _ => .fail _
  | succ room ih =>
      exact decided_statementWith (decided_expression (room + 1)) (decided_block ih)

theorem decided_statements : Decided statements := by
  refine .loop (fun stmts => decided_peekKind.bind fun kind => ?_) []
  split
  · exact .pure _
  · exact decided_follow (decided_statement maxNesting) stmts

end Statements

theorem Stream.ordered_ofTokens (tokens : List Token) : (Stream.ofTokens tokens).Ordered where
  closed := closed_ofTokens tokens
  ahead token htoken := by
    have hall := List.all_eq_true.1 (tokens.all_takeWhile (p := fun t => t.kind ≠ .endOfInput))
    simpa using hall token htoken

/-- Tokens in front of the end of input are on the way through a list, and the one behind them is
seen then. -/
theorem Stream.past_ofTokens {front : List Token}
    (hfront : ∀ token ∈ front, token.kind ≠ .endOfInput) (token : Token) (rest : List Token) :
    ∃ t, (Stream.ofTokens (front ++ token :: rest)).Past front t ∧ t.next = token := by
  have htake : (Stream.ofTokens (front ++ token :: rest)).ahead =
      front ++ (token :: rest).takeWhile fun t => t.kind ≠ .endOfInput :=
    List.takeWhile_append_of_pos (by simpa using hfront)
  by_cases htoken : token.kind = .endOfInput
  · have hstop : (Stream.ofTokens (front ++ token :: rest)).stop = token := by
      have hnone : front.find? (fun t => t.kind = .endOfInput) = none :=
        List.find?_eq_none.2 (by simpa using hfront)
      simp [Stream.ofTokens, List.find?_append, hnone, htoken]
    rw [List.takeWhile_cons_of_neg (by simpa using htoken)] at htake
    exact ⟨⟨_, [], _⟩, ⟨⟨htake, rfl⟩, rfl⟩, hstop⟩
  · rw [List.takeWhile_cons_of_pos (by simpa using htoken)] at htake
    exact ⟨⟨_, _, _⟩, ⟨⟨htake, rfl⟩, rfl⟩, rfl⟩

/-- On the way through a list that has an end of input, the next token is the one that stands in
the list behind those that were taken. -/
theorem Stream.split_of_past {tokens front : List Token} {t : Stream}
    (hend : ∃ token ∈ tokens, token.kind = .endOfInput)
    (h : (Stream.ofTokens tokens).Past front t) : ∃ rest, tokens = front ++ t.next :: rest := by
  have hsplit := tokens.takeWhile_append_dropWhile (p := fun token => token.kind ≠ .endOfInput)
  rw [show tokens.takeWhile (fun token => token.kind ≠ .endOfInput) = front ++ t.ahead from h.ahead,
    List.append_assoc] at hsplit
  cases hahead : t.ahead with
  | cons token rest =>
      rw [hahead] at hsplit
      exact ⟨_, by rw [Stream.next, hahead]; exact hsplit.symm⟩
  | nil =>
      obtain ⟨stop, hstop⟩ : ∃ stop,
          tokens.find? (fun token => token.kind = .endOfInput) = some stop := by
        rw [← Option.isSome_iff_exists, List.find?_isSome]
        simpa using hend
      have hnext : t.next = stop := by
        rw [Stream.next, hahead, List.headD_nil, h.stop]
        simp [Stream.ofTokens, hstop]
      rw [List.find?_eq_head?_dropWhile_not, List.head?_eq_some_iff] at hstop
      obtain ⟨rest, hrest⟩ := hstop
      simp only [decide_not, hahead, List.nil_append, hrest] at hsplit
      exact ⟨rest, by rw [hnext]; exact hsplit.symm⟩

/-- A list of tokens is refused for the same reason whenever it begins with the same tokens, up to
the one that is blamed. -/
theorem Decided.result {reader : Reader α} (h : Decided reader) {tokens : List Token}
    (hend : ∃ token ∈ tokens, token.kind = .endOfInput) {fault : Fault}
    (hresult : reader.result tokens = .error fault) (hdeep : fault.expected ≠ .lessNesting) :
    ∃ i : Nat, tokens[i]? = some fault.found ∧
      ∀ others : List Token, (∀ j ≤ i, others[j]? = tokens[j]?) →
        reader.result others = .error fault := by
  have hread : reader (Stream.ofTokens tokens) = .error fault := by
    unfold Reader.result at hresult
    split at hresult
    · cases hresult
    · next fault' hread =>
        cases hresult
        exact hread
  have hordered := Stream.ordered_ofTokens tokens
  obtain ⟨front, t, hpast, hfound, hlike⟩ := (h _ hordered).blames hread hdeep
  obtain ⟨later, hsplit⟩ := Stream.split_of_past hend hpast
  refine ⟨front.length, by rw [hsplit, hfound]; simp, fun others hothers => ?_⟩
  have hfront : ∀ token ∈ front, token.kind ≠ .endOfInput := fun token htoken =>
    hordered.ahead token (hpast.ahead ▸ List.mem_append_left _ htoken)
  obtain ⟨rest, rfl⟩ : ∃ rest, others = front ++ t.next :: rest := by
    refine ⟨others.drop (front.length + 1), List.ext_getElem? fun j => ?_⟩
    grind
  obtain ⟨v, hv, hnext⟩ := Stream.past_ofTokens hfront t.next rest
  have hsame : (Stream.ofTokens tokens).Like front t.next
      (Stream.ofTokens (front ++ t.next :: rest)) v := by
    refine ⟨Stream.ordered_ofTokens _, ?_, hv, hnext⟩
    -- before the first token is taken, the next one stands for the last one taken
    change (Stream.ofTokens _).next = (Stream.ofTokens tokens).next
    rw [hv.next_eq, hnext, hpast.next_eq]
  rw [Reader.result, hlike hsame]

end Grammar

open Grammar

/-- A script is refused for a token of its list, and the tokens up to that one decide: every list
that begins with them is refused with the same failure. Complaints about the nesting are left
out. -/
theorem failure_decided {tokens : List Token}
    (hend : tokens.getLast?.map Token.kind = some .endOfInput) {failure : Failure}
    (h : Script.ofTokens tokens = .error failure)
    (hdeep : ∀ found, failure.cause ≠ .grammar Expectation.lessNesting.message found) :
    ∃ (i : Nat) (token : Token) (message : String), tokens[i]? = some token ∧
      failure = (Cause.grammar message token.describe).located token.position ∧
      ∀ others : List Token, (∀ j ≤ i, others[j]? = tokens[j]?) →
        Script.ofTokens others = .error failure := by
  have hstop : ∃ token ∈ tokens, token.kind = .endOfInput := by
    obtain ⟨token, htoken, hkind⟩ := Option.map_eq_some_iff.1 hend
    exact ⟨token, List.mem_of_getLast? htoken, hkind⟩
  unfold Script.ofTokens at h
  split at h
  · cases h
  · next fault hresult =>
      cases h
      have hexpected : fault.expected ≠ .lessNesting := fun heq =>
        hdeep fault.found.describe (by rw [Fault.failure, heq]; rfl)
      obtain ⟨i, hfound, hothers⟩ := decided_statements.result hstop hresult hexpected
      refine ⟨i, fault.found, fault.expected.message, hfound, rfl, fun others hsame => ?_⟩
      rw [Script.ofTokens, hothers others hsame]

/-- A closing mark behind a comma in the list `[a, )`: whatever follows it, it is refused. -/
theorem failure_decided_list :
    let front : List Token := [⟨.symbol .leftBracket, "[", ⟨1, 1⟩⟩, ⟨.identifier, "a", ⟨1, 2⟩⟩,
      ⟨.symbol .comma, ",", ⟨1, 3⟩⟩]
    let close : Token := ⟨.symbol .rightParen, ")", ⟨1, 5⟩⟩
    let failure := (Cause.grammar "Expected an expression" "')'").located ⟨1, 5⟩
    Script.ofTokens (front ++ [close, Token.endAt ⟨1, 6⟩]) = .error failure ∧
      ∀ rest, Script.ofTokens (front ++ close :: rest) = .error failure := by
  intro front close failure
  have hresult : statements.result (front ++ [close, Token.endAt ⟨1, 6⟩]) =
      .error ⟨.expression, close⟩ := by
    cbv
  have hfails : Script.ofTokens (front ++ [close, Token.endAt ⟨1, 6⟩]) = .error failure := by
    rw [Script.ofTokens, hresult]
    rfl
  have hdeep (found : String) :
      failure.cause ≠ .grammar Expectation.lessNesting.message found := by
    intro heq
    have hmessage : "Expected an expression" = Expectation.lessNesting.message :=
      (Cause.grammar.inj heq).1
    exact absurd hmessage (by decide)
  obtain ⟨i, token, message, htoken, hfailure, hothers⟩ := failure_decided rfl hfails hdeep
  have hposition : (⟨1, 5⟩ : Position) = token.position :=
    Option.some.inj (congrArg Failure.position hfailure)
  -- only the fourth token stands where the failure is
  have honly : ∀ i < 5, (front ++ [close, Token.endAt ⟨1, 6⟩])[i]?.map Token.position =
      some ⟨1, 5⟩ → i = 3 := by
    decide
  obtain rfl : i = 3 := by
    refine honly i (List.getElem?_eq_some_iff.1 htoken).1 ?_
    rw [htoken, hposition]
    rfl
  refine ⟨hfails, fun rest => hothers _ fun j hj => ?_⟩
  interval_cases j <;> rfl

end ToolScript
