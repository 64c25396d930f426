import ToolScript.Proofs.Walking.Following

/-!
# Reading by index makes progress

The walk of every phrase of the grammar follows the reader of that phrase, and takes a token when it
gives a value. From this the whole run over any list of tokens is known: it finishes as reading the
list does, each of its cursors stands inside the list and inside the levels, and the index is never
set back.
-/

namespace ToolScript.Grammar

namespace Follows

section Expressions

variable {row : TokenRow} {room limit : Nat} {walk : Walk Expr} {reader : Reader Expr}

theorem chainRound {level : Nat} (h : Follows row room walk reader Always) (left : Expr) :
    Follows row room (Walk.chainRound level walk left) (Grammar.chainRound room level reader left)
      Again := by
  intro c hc hroom
  refine .look (Walk.bind_still (Walk.peekKind_eq hc)) rfl ?_
  cases hop : (BinaryOp.ofKind? (c.view row).next.kind).filter fun op => op.level = level with
  | none => exact .pure (by simp [Again])
  | some op =>
      have hkind : (c.view row).next.kind ≠ .endOfInput := by
        intro hend
        rw [hend] at hop
        cases hop
      exact (FollowsAt.advance hc hkind).bind_taking
        (fun token => h.bind fun right => (bounded _).bind fun e => done) hc hroom

variable (h : Follows row room walk reader Always) (hlimit : row.tokens.length ≤ limit)

include h hlimit

theorem chains (level : Nat) :
    Follows row room (Walk.chains limit walk level) (Grammar.chains room reader level) Always := by
  induction level with
  | zero => exact h
  | succ level ih => exact ih.bind_taking fun first => loop (chainRound ih) hlimit first

omit hlimit in
theorem argument (args : Dict Expr) :
    Follows row room (Walk.argument walk args) (Grammar.argument reader args) Always :=
  expectName.bind_taking fun _ => expectSymbol.bind fun _ => h.bind fun _ => done

theorem invocation :
    Follows row room (Walk.invocation limit walk) (Grammar.invocation reader) Always :=
  expectName.bind_taking fun _ => expectSymbol.bind fun _ =>
    (separated (argument h) hlimit []).bind fun _ => expectSymbol.bind fun _ => done

omit hlimit in
theorem item (items : List Expr) :
    Follows row room (Walk.item walk items) (Grammar.item reader items) Always :=
  h.bind_taking fun _ => done

theorem callArguments :
    Follows row room (Walk.callArguments limit walk) (Grammar.callArguments reader) Always :=
  (separated (item h) hlimit []).bind fun _ => expectSymbol.bind_taking fun _ => done

omit h hlimit in
theorem propertyName : Follows row room Walk.propertyName Grammar.propertyName Always := by
  intro c hc hroom
  refine .lookKind hc fun kind hkind => ?_
  have htaken (htoken : kind ≠ .endOfInput) :
      FollowsAt row (Walk.advance >>= fun token => Pure.pure token.lexeme)
        (Reader.advance >>= fun token => Pure.pure token.lexeme) Always c :=
    (FollowsAt.advance hc (hkind ▸ htoken)).bind_taking (fun _ => done) hc hroom
  cases kind with
  | identifier => exact htaken (by simp)
  | string => exact htaken (by simp)
  | number => exact .fail hc _
  | keyword word => exact .fail hc _
  | symbol sign => exact .fail hc _
  | endOfInput => exact .fail hc _

omit hlimit in
theorem property (entries : Dict Expr) :
    Follows row room (Walk.property walk entries) (Grammar.property reader entries) Always :=
  propertyName.bind_taking fun _ => expectSymbol.bind fun _ => h.bind fun _ => done

theorem primaryFrom (token : Token) :
    Follows row room (Walk.primaryFrom limit walk token) (Grammar.primaryFrom reader token)
      Never := by
  obtain ⟨kind, lexeme, pos⟩ := token
  cases kind with
  | identifier =>
      refine (accept (by simp)).bind fun called => ?_
      split
      · exact (callArguments h hlimit).bind fun _ => done
      · exact done
  | number =>
      unfold Walk.primaryFrom Grammar.primaryFrom
      dsimp only
      cases Number.ofText? lexeme with
      | some n => exact done
      | none => exact blame
  | string => exact done
  | keyword word =>
      cases word with
      | kwTrue | kwFalse | kwNull => exact done
      | kwNow => exact expectSymbol.bind fun _ => expectSymbol.bind fun _ => done
      | kwPrint => exact expectSymbol.bind fun _ => (callArguments h hlimit).bind fun _ => done
      | kwCall => exact (invocation h hlimit).bind fun _ => done
      | _ => exact blame
  | symbol sign =>
      cases sign with
      | leftParen => exact h.bind fun _ => expectSymbol.bind fun _ => done
      | leftBracket =>
          exact (separated (item h) hlimit []).bind fun _ => expectSymbol.bind fun _ => done
      | leftBrace =>
          exact (separated (property h) hlimit []).bind fun _ => expectSymbol.bind fun _ => done
      | _ => exact blame
  | endOfInput => exact blame

omit h hlimit in
/-- A token that cannot begin an expression is to blame itself. -/
theorem primaryFrom_eq_blame {token : Token} (hnot : Walk.beginsPrimary token.kind = false) :
    ∃ expected, Walk.primaryFrom limit walk token = Walk.blame expected token ∧
      Grammar.primaryFrom reader token = Reader.blame expected token := by
  obtain ⟨kind, lexeme, pos⟩ := token
  cases kind with
  | identifier | number | string => cases hnot
  | keyword word => cases word <;> first | exact ⟨_, rfl, rfl⟩ | cases hnot
  | symbol sign => cases sign <;> first | exact ⟨_, rfl, rfl⟩ | cases hnot
  | endOfInput => exact ⟨_, rfl, rfl⟩

/-- The walk leaves a token that cannot begin an expression, where the reader takes it. Both blame
that token. -/
theorem primary :
    Follows row room (Walk.primary limit walk) (Grammar.primary reader) Always := by
  intro c hc hroom
  refine .look (Walk.peek_eq hc) rfl ?_
  cases hbegins : Walk.beginsPrimary (c.view row).next.kind with
  | true =>
      have hkind : (c.view row).next.kind ≠ .endOfInput := by
        intro hend
        rw [hend] at hbegins
        cases hbegins
      rw [if_pos rfl]
      exact (FollowsAt.advance hc hkind).bind_taking (fun _ => primaryFrom h hlimit _) hc hroom
  | false =>
      obtain ⟨expected, hwalk, hreader⟩ :
          ∃ expected, Walk.primaryFrom limit walk (c.view row).next = Walk.blame expected _ ∧
            Grammar.primaryFrom reader (c.view row).next = Reader.blame expected _ :=
        primaryFrom_eq_blame hbegins
      rw [if_neg Bool.false_ne_true, hwalk, hreader]
      exact (FollowsAt.blame expected _).congr rfl (Reader.advance_blame expected _ _)

omit hlimit in
theorem accessRound (subject : Expr) :
    Follows row room (Walk.accessRound walk subject) (Grammar.accessRound room reader subject)
      Again := by
  intro c hc hroom
  refine .lookKind hc fun kind hkind => ?_
  have hdone : FollowsAt row (Pure.pure (subject, false)) (Pure.pure (subject, false)) Again c :=
    .pure (by simp [Again])
  cases kind with
  | symbol sign =>
      have hadvance := FollowsAt.advance hc (by simp [hkind])
      cases sign with
      | leftBracket =>
          exact hadvance.bind_taking (fun _ => h.bind fun _ => expectSymbol.bind fun _ =>
            (bounded _).bind fun _ => done) hc hroom
      | dot =>
          exact hadvance.bind_taking (fun _ => expectName.bind fun _ =>
            (bounded _).bind fun _ => done) hc hroom
      | _ => exact hdone
  | _ => exact hdone

theorem accessed :
    Follows row room (Walk.accessed limit walk) (Grammar.accessed room reader) Always :=
  (primary h hlimit).bind_taking fun first => loop (accessRound h) hlimit first

theorem operandWith {inner : Walk Expr} {innerReader : Reader Expr}
    (hinner : Follows row room inner innerReader Always) :
    Follows row room (Walk.operandWith limit inner walk)
      (Grammar.operandWith room innerReader reader) Always := by
  intro c hc hroom
  refine .lookKind hc fun kind hkind => ?_
  cases hop : UnaryOp.ofKind? kind with
  | some op =>
      have htoken : (c.view row).next.kind ≠ .endOfInput := by
        intro hend
        rw [← hkind, hend] at hop
        cases hop
      exact (FollowsAt.advance hc htoken).bind_taking
        (fun _ => hinner.bind fun _ => done) hc hroom
  | none => exact accessed h hlimit c hc hroom

omit h hlimit in
theorem operand (hlimit : row.tokens.length + room < limit) :
    Follows row room (Walk.operand limit) (Grammar.operand room) Always := by
  -- what is inside an operand is one level further down, and there the limit is one less
  induction room generalizing limit with
  | zero =>
      cases limit with
      | zero => omega
      | succ limit => exact operandWith nested_zero (by omega) nested_zero
  | succ room ih =>
      cases limit with
      | zero => omega
      | succ limit =>
          have hinner : Follows row room (Walk.operand limit) (Grammar.operand room) Always :=
            ih (by omega)
          exact operandWith (nested_succ (chains hinner (by omega) loosest)) (by omega)
            (nested_succ hinner)

omit h hlimit in
theorem expression (hlimit : row.tokens.length + room ≤ limit) :
    Follows row room (Walk.expression limit) (Grammar.expression room) Always := by
  cases room with
  | zero => exact nested_zero
  | succ room => exact nested_succ (chains (operand (by omega)) (by omega) loosest)

end Expressions

section Statements

variable {row : TokenRow} {room limit : Nat} {walk : Walk Stmt} {reader : Reader Stmt}

theorem follow (h : Follows row room walk reader Always) (stmts : List Stmt) :
    Follows row room (Walk.follow walk stmts) (Grammar.follow reader stmts) Again :=
  h.bind_taking fun _ => done

theorem blockRound (h : Follows row room walk reader Always) (kind : Block) (stmts : List Stmt) :
    Follows row room (Walk.blockRound walk kind stmts) (Grammar.blockRound reader kind stmts)
      Again := by
  refine lookKind fun found => ?_
  cases found with
  | keyword word =>
      dsimp only
      by_cases hcloses : word ∈ kind.closers
      · rw [if_pos hcloses, if_pos hcloses]
        exact pure (by simp [Again])
      · rw [if_neg hcloses, if_neg hcloses]
        exact follow h stmts
  | endOfInput => exact fail
  | identifier | number | string | symbol => exact follow h stmts

theorem block (h : Follows row room walk reader Always) (hlimit : row.tokens.length ≤ limit)
    (kind : Block) :
    Follows row room (Walk.block limit walk kind) (Grammar.block reader kind) Never :=
  loop (blockRound h kind) hlimit []

theorem statementWith {expr : Walk Expr} {exprReader : Reader Expr}
    {blocks : Block → Walk (List Stmt)} {blockReader : Block → Reader (List Stmt)}
    (h : Follows row room expr exprReader Always) (hlimit : row.tokens.length ≤ limit)
    (hblock : ∀ kind, Follows row room (blocks kind) (blockReader kind) Never) :
    Follows row room (Walk.statementWith limit expr blocks)
      (Grammar.statementWith exprReader blockReader) Always := by
  intro c hc hroom
  refine .lookKind hc fun kind hkind => ?_
  have hexpr : FollowsAt row (expr >>= fun e => Pure.pure (Stmt.expr e.position e))
      (exprReader >>= fun e => Pure.pure (Stmt.expr e.position e)) Always c :=
    h.bind_taking (fun _ => done) c hc hroom
  cases kind with
  | keyword word =>
      have hadvance := FollowsAt.advance hc (by simp [hkind])
      cases word with
      | kwLet =>
          exact hadvance.bind_taking (fun _ => expectName.bind fun _ => expectSymbol.bind fun _ =>
            h.bind fun _ => done) hc hroom
      | kwCall =>
          exact hadvance.bind_taking (fun _ => (invocation h hlimit).bind fun _ => done) hc hroom
      | kwIf =>
          refine hadvance.bind_taking (fun _ => h.bind fun _ => expectKeyword.bind fun _ =>
            (hblock .yes).bind fun _ => (accept (by simp)).bind fun otherwise => ?_) hc hroom
          cases otherwise with
          | true => exact ((hblock .no).map some).bind fun _ => expectKeyword.bind fun _ => done
          | false => exact done.bind fun _ => expectKeyword.bind fun _ => done
      | kwFor =>
          exact hadvance.bind_taking (fun _ => expectName.bind fun _ => expectKeyword.bind fun _ =>
            h.bind fun _ => expectKeyword.bind fun _ => (hblock .body).bind fun _ =>
            expectKeyword.bind fun _ => done) hc hroom
      | _ => exact hexpr
  | _ => exact hexpr

theorem statement (hlimit : row.tokens.length + room < limit) :
    Follows row room (Walk.statement limit) (Grammar.statement room) Always := by
  induction room generalizing limit with
  | zero =>
      cases limit with
      | zero => omega
      | succ limit =>
          exact statementWith (expression (by omega)) (by omega) fun _ => nested_zero
  | succ room ih =>
      cases limit with
      | zero => omega
      | succ limit =>
          exact statementWith (expression (by omega)) (by omega) fun kind =>
            nested_succ (block (ih (by omega)) (by omega) kind)

theorem scriptRound (hlimit : row.tokens.length + maxNesting < limit) (stmts : List Stmt) :
    Follows row maxNesting (Walk.scriptRound limit stmts) (Grammar.scriptRound stmts) Again := by
  refine lookKind fun kind => ?_
  split
  · exact pure (by simp [Again])
  · exact follow (statement hlimit) stmts

theorem statements (hlimit : row.tokens.length + maxNesting < limit) :
    Follows row maxNesting (Walk.statements limit) Grammar.statements Never :=
  loop (scriptRound hlimit) (by omega) []

end Statements

end Follows

/-- How a walk finishes that finds what a reader found. -/
def Finish.of {α : Type} : Except Fault (α × Stream) → Finish α
  | .ok (a, _) => .gives a
  | .error fault => .blames fault

/-- The course from a cursor finishes as a reader does. It begins and ends at one level, each of its
cursors stands at a token and at a level that there is, none behind the first end of input, and the
index is never set back. -/
structure Course.Safe {α : Type} (row : TokenRow) (c : Cursor) (course : Course α)
    (found : Except Fault (α × Stream)) : Prop where
  finish : course.finish = .of found
  tokens : ∀ p ∈ c :: course.points, p.current < row.tokens.length
  stop : ∀ p ∈ c :: course.points, p.current ≤ row.stop
  levels : ∀ p ∈ c :: course.points, p.depth ≤ maxNesting
  increasing : (c :: course.points).Pairwise fun p q => p.current ≤ q.current
  last : (c :: course.points).getLast? = some course.cursor
  depth : course.cursor.depth = c.depth

/-- From every cursor inside the row the course is safe and finishes as the reader with as much room
as there are levels left. A value has taken a token. -/
def Walk.Advances {α : Type} (row : TokenRow) (walk : Walk α) (reader : Nat → Reader α) : Prop :=
  ∀ c : Cursor, c.Inside row →
    (walk row c).Safe row c (reader (maxNesting - c.depth) (c.view row)) ∧
      ∀ a, (walk row c).finish = .gives a → c.current < (walk row c).cursor.current

section Courses

variable {α : Type} {row : TokenRow} {c : Cursor} {walk : Walk α}

theorem FollowsAt.finish {reader : Reader α} {takes : α → Prop}
    (h : FollowsAt row walk reader takes c) :
    (walk row c).finish = .of (reader (c.view row)) := by
  cases hreader : reader (c.view row) with
  | ok result => exact (h.gives hreader).1
  | error fault => exact h.blames hreader

theorem FollowsAt.safe {reader : Reader α} {takes : α → Prop}
    (h : FollowsAt row walk reader takes c) (hc : c.Inside row) :
    (walk row c).Safe row c (reader (c.view row)) := by
  have hinside := (h.path.inside hc).2
  exact
    { finish := h.finish
      tokens := fun p hp => (hinside p hp).lt
      stop := fun p hp => (hinside p hp).current
      levels := fun p hp => (hinside p hp).depth
      increasing := h.path.increasing
      last := h.path.getLast
      depth := h.depth }

theorem Walk.Advances.of_follows {reader : Nat → Reader α}
    (h : ∀ room, room ≤ maxNesting → Follows row room walk (reader room) Always) :
    walk.Advances row reader := by
  intro c hc
  have hfollows := h (maxNesting - c.depth) (Nat.sub_le _ _) c hc (Nat.add_sub_of_le hc.depth)
  refine ⟨hfollows.safe hc, fun a hgives => ?_⟩
  cases hreader : reader (maxNesting - c.depth) (c.view row) with
  | ok result => exact (hfollows.gives hreader).2.2 trivial
  | error fault => cases hgives.symm.trans (hfollows.blames hreader)

theorem Walk.cursor_fail (expected : Expectation) (row : TokenRow) (c : Cursor) :
    (Walk.fail expected row c : Course α).cursor = c := by
  have hpeek : Walk.peek row c = Walk.tokenAt c.current row c := Walk.bind_still rfl
  change ((Walk.peek row c).andThen _).cursor = c
  rw [hpeek, Walk.tokenAt]
  cases row.tokens[c.current]? with
  | some token => rfl
  | none => rfl

/-- Going down a level is undone however the walk there finishes, and from every cursor. -/
theorem Walk.depth_nested (walk : Walk α) (row : TokenRow) (c : Cursor) :
    (Walk.nested walk row c).cursor.depth = c.depth := by
  unfold Walk.nested
  split
  · rw [Walk.cursor_fail]
  · rfl

end Courses

/-- Within the limit every phrase of the grammar advances. -/
structure Walk.PhrasesAdvance (row : TokenRow) (limit : Nat) : Prop where
  statement : (Walk.statement limit).Advances row Grammar.statement
  expression : (Walk.expression limit).Advances row Grammar.expression
  chains : ∀ level, (Walk.chains limit (Walk.operand limit) level).Advances row fun room =>
    Grammar.chains room (Grammar.operand room) level
  operand : (Walk.operand limit).Advances row Grammar.operand
  accessed : (Walk.accessed limit (Walk.expression limit)).Advances row fun room =>
    Grammar.accessed room (Grammar.expression room)
  primary : (Walk.primary limit (Walk.expression limit)).Advances row fun room =>
    Grammar.primary (Grammar.expression room)
  callArguments : (Walk.callArguments limit (Walk.expression limit)).Advances row fun room =>
    Grammar.callArguments (Grammar.expression room)
  invocation : (Walk.invocation limit (Walk.expression limit)).Advances row fun room =>
    Grammar.invocation (Grammar.expression room)

theorem Walk.phrasesAdvance {row : TokenRow} {limit : Nat}
    (hlimit : row.tokens.length + maxNesting < limit) : Walk.PhrasesAdvance row limit := by
  have hrows : row.tokens.length ≤ limit := by omega
  have hoperand {room : Nat} (hroom : room ≤ maxNesting) :
      Follows row room (Walk.operand limit) (Grammar.operand room) Always :=
    .operand (by omega)
  have hexpression {room : Nat} (hroom : room ≤ maxNesting) :
      Follows row room (Walk.expression limit) (Grammar.expression room) Always :=
    .expression (by omega)
  exact
    { statement := .of_follows fun room hroom => .statement (by omega)
      expression := .of_follows fun room => hexpression
      chains := fun level => .of_follows fun room hroom => (hoperand hroom).chains hrows level
      operand := .of_follows fun room => hoperand
      accessed := .of_follows fun room hroom => (hexpression hroom).accessed hrows
      primary := .of_follows fun room hroom => (hexpression hroom).primary hrows
      callArguments := .of_follows fun room hroom => (hexpression hroom).callArguments hrows
      invocation := .of_follows fun room hroom => (hexpression hroom).invocation hrows }

/-- The script that a run over all statements ends with, or how it fails. -/
def Finish.script : Finish (List Stmt) → Option (Except Failure Script)
  | .gives stmts => some (.ok ⟨stmts⟩)
  | .blames fault => some (.error fault.failure)
  | .outside => none
  | .unfinished => none

theorem Finish.script_of (tokens : List Token) :
    (Finish.of (statements (Stream.ofTokens tokens))).script = some (Script.ofTokens tokens) := by
  unfold Script.ofTokens Reader.result
  cases statements (Stream.ofTokens tokens) with
  | ok result => rfl
  | error fault => rfl

/-- Over any list of tokens the run by index ends, within a limit that is a little larger than the
list, with the script that the list spells, or as that fails. On the way it is safe, and so is every
phrase of the grammar from every cursor inside the row. A phrase that gives a value has taken a
token, so that no round of a loop goes without one. Going down a level is always undone. -/
theorem Walk.statements_progress (tokens : List Token) {limit : Nat}
    (hlimit : tokens.length + maxNesting + 2 ≤ limit) :
    let row := TokenRow.ofTokens tokens
    let run := Walk.statements limit row .start
    run.Safe row .start (Grammar.statements (Stream.ofTokens tokens)) ∧
      run.finish.script = some (Script.ofTokens tokens) ∧
      Walk.PhrasesAdvance row limit ∧
      ∀ {α : Type} (walk : Walk α) (c : Cursor),
        (Walk.nested walk row c).cursor.depth = c.depth := by
  intro row run
  have hrow : row.tokens.length + maxNesting < limit := by
    have hlength : row.tokens.length ≤ tokens.length + 1 := TokenRow.length_ofTokens_le tokens
    omega
  have hview : Cursor.start.view row = Stream.ofTokens tokens :=
    (Cursor.view_start row).trans (TokenRow.stream_ofTokens tokens)
  have hfollows : FollowsAt row (Walk.statements limit) Grammar.statements Never .start :=
    Follows.statements hrow .start (Cursor.start_inside row) (Nat.zero_add _)
  have hsafe : run.Safe row .start (Grammar.statements (Stream.ofTokens tokens)) :=
    hview ▸ hfollows.safe (Cursor.start_inside row)
  refine ⟨hsafe, ?_, Walk.phrasesAdvance hrow, fun walk => walk.depth_nested row⟩
  rw [hsafe.finish, Finish.script_of]

/-- The end of input may stand in the middle, and lexemes need not fit their kinds. -/
theorem Walk.statements_progress_odd_tokens :
    let tokens : List Token :=
      [⟨.keyword .kwLet, "1", .start⟩, ⟨.identifier, "", .start⟩, ⟨.symbol .assign, "x", .start⟩,
        ⟨.symbol .leftParen, "", .start⟩, ⟨.endOfInput, "LET", .start⟩, ⟨.number, "y", .start⟩]
    let run := Walk.statements 136 (TokenRow.ofTokens tokens) .start
    tokens.length + maxNesting + 2 ≤ 136 ∧
      run.Safe (TokenRow.ofTokens tokens) .start (Grammar.statements (Stream.ofTokens tokens)) ∧
      run.points = [⟨1, 0⟩, ⟨2, 0⟩, ⟨3, 0⟩, ⟨3, 1⟩, ⟨4, 1⟩, ⟨4, 2⟩, ⟨4, 1⟩, ⟨4, 0⟩] := by
  intro tokens run
  have hlimit : tokens.length + maxNesting + 2 ≤ 136 := by decide
  exact ⟨hlimit, (Walk.statements_progress tokens hlimit).1, by decide +kernel⟩

end ToolScript.Grammar
