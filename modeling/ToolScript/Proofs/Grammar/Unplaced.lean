import ToolScript.Proofs.Grammar.Reading
import ToolScript.Proofs.Printing.WellFormed

/-!
# Readers do not look at positions

A reader is blind to positions if taking them out of the tokens takes them out of what the
reader makes and of the token that it blames, and changes nothing else. Readers put together
from blind ones are blind, so the whole grammar is: the positions of tokens become positions of
nodes and faults, and decide nothing.
-/

namespace ToolScript

/-- The token with its position taken out. -/
def Token.unplaced (token : Token) : Token :=
  { token with position := .start }

namespace Expr

theorem unplacedItems_concat (items : List Expr) (e : Expr) :
    unplacedItems (items ++ [e]) = unplacedItems items ++ [e.unplaced] := by
  induction items with
  | nil => rfl
  | cons first rest ih => exact congrArg (first.unplaced :: ·) ih

theorem unplacedEntries_insert (entries : Dict Expr) (name : String) (e : Expr) :
    unplacedEntries (Dict.insert entries name e) =
      Dict.insert (unplacedEntries entries) name e.unplaced := by
  induction entries with
  | nil => rfl
  | cons entry rest ih =>
      obtain ⟨key, old⟩ := entry
      by_cases hkey : key = name
      · simp only [Dict.insert, unplacedEntries, hkey, if_true]
      · simp only [Dict.insert, unplacedEntries, hkey, if_false, ih]

theorem position_unplaced (e : Expr) : e.unplaced.position = .start := by
  cases e <;> rfl

end Expr

theorem Stmt.unplacedBlock_concat (stmts : List Stmt) (stmt : Stmt) :
    unplacedBlock (stmts ++ [stmt]) = unplacedBlock stmts ++ [stmt.unplaced] := by
  induction stmts with
  | nil => rfl
  | cons first rest ih => exact congrArg (first.unplaced :: ·) ih

namespace Grammar

open Reader

variable {α β : Type}

/-- The stream with all positions taken out. -/
def Stream.unplaced (s : Stream) : Stream :=
  ⟨s.last.unplaced, s.ahead.map Token.unplaced, s.stop.unplaced⟩

/-- The fault with the position of its token taken out. -/
def Fault.unplaced (fault : Fault) : Fault :=
  { fault with found := fault.found.unplaced }

/-- What a reader gives, with all positions taken out, those of the result by `f`. -/
def unplacedReading (f : α → α) : Except Fault (α × Stream) → Except Fault (α × Stream)
  | .ok (a, s) => .ok (f a, s.unplaced)
  | .error fault => .error fault.unplaced

/-- From tokens without positions `other` makes what `reader` makes from the tokens, with all
positions taken out, those of the result by `f`. -/
def Blind (f : α → α) (reader other : Reader α) : Prop :=
  ∀ s, other s.unplaced = unplacedReading f (reader s)

theorem Stream.next_unplaced (s : Stream) : s.unplaced.next = s.next.unplaced := by
  unfold Stream.next Stream.unplaced
  cases s.ahead with
  | nil => rfl
  | cons token rest => rfl

theorem Stream.ofTokens_unplaced (tokens : List Token) :
    Stream.ofTokens (tokens.map Token.unplaced) = (Stream.ofTokens tokens).unplaced := by
  have hahead : (tokens.map Token.unplaced).takeWhile (fun token => token.kind ≠ .endOfInput) =
      (tokens.takeWhile fun token => token.kind ≠ .endOfInput).map Token.unplaced := by
    rw [List.takeWhile_map]
    rfl
  have hstop : ((tokens.map Token.unplaced).find? fun token => token.kind = .endOfInput).getD
        (Token.endAt (((tokens.map Token.unplaced).getLast?.map Token.position).getD .start)) =
      ((tokens.find? fun token => token.kind = .endOfInput).getD
        (Token.endAt ((tokens.getLast?.map Token.position).getD .start))).unplaced := by
    rw [List.find?_map, List.getLast?_map]
    change (Option.map _ (tokens.find? fun token => token.kind = .endOfInput)).getD _ = _
    cases tokens.find? fun token => token.kind = .endOfInput with
    | some stop => rfl
    | none => cases tokens.getLast? <;> rfl
  simp only [Stream.ofTokens, Stream.unplaced, hahead, hstop]
  cases tokens.takeWhile fun token => token.kind ≠ .endOfInput with
  | nil => rfl
  | cons token rest => rfl

namespace Blind

variable {f : α → α} {g : β → β} {x y : Reader α}

theorem pure (f : α → α) (a : α) : Blind f (Pure.pure a) (Pure.pure (f a)) :=
  fun _ => rfl

theorem fail (expected : Expectation) : Blind f (Reader.fail expected) (Reader.fail expected) := by
  intro s
  simp only [Reader.fail, Stream.next_unplaced]
  rfl

theorem blame (expected : Expectation) (token : Token) :
    Blind f (Reader.blame expected token) (Reader.blame expected token.unplaced) :=
  fun _ => rfl

theorem bind {k k' : α → Reader β} (h : Blind f x y) (hk : ∀ a, Blind g (k a) (k' (f a))) :
    Blind g (x >>= k) (y >>= k') := by
  intro s
  have hfirst := h s
  cases hx : x s with
  | error fault =>
      rw [hx] at hfirst
      rw [bind_error hx, bind_error hfirst]
      rfl
  | ok result =>
      rw [hx] at hfirst
      rw [bind_ok hx, bind_ok hfirst]
      exact hk result.1 result.2

theorem map {k : α → β} (h : Blind f x y) (hk : ∀ a, g (k a) = k (f a)) :
    Blind g (k <$> x) (k <$> y) := by
  change Blind g (x >>= fun a => Pure.pure (k a)) (y >>= fun a => Pure.pure (k a))
  refine h.bind fun a => ?_
  rw [← hk]
  exact .pure g (k a)

/-- Rounds that are blind one by one are blind all along. -/
theorem loop {round round' : α → Reader (α × Bool)}
    (h : ∀ a, Blind (fun result => (f result.1, result.2)) (round a) (round' (f a))) (a : α) :
    Blind f (Reader.loop round a) (Reader.loop round' (f a)) := by
  intro s
  -- on the number of tokens ahead: a round is repeated only if it took one
  induction hn : s.ahead.length using Nat.strongRecOn generalizing a s with
  | ind n ih =>
      have hround := h a s
      rw [Reader.loop.eq_def, Reader.loop.eq_def, hround]
      cases hfirst : round a s with
      | error fault => rfl
      | ok result =>
          obtain ⟨⟨b, again⟩, t⟩ := result
          simp only [unplacedReading, Stream.unplaced, List.length_map]
          split
          · next hagain => exact ih _ (hn ▸ hagain.2) b t rfl
          · rfl

theorem result (h : Blind f x y) (tokens : List Token) :
    y.result (tokens.map Token.unplaced) =
      match x.result tokens with
      | .ok a => .ok (f a)
      | .error fault => .error fault.unplaced := by
  unfold Reader.result
  rw [Stream.ofTokens_unplaced, h]
  cases x (Stream.ofTokens tokens) with
  | error fault => rfl
  | ok result => rfl

end Blind

theorem blind_peek : Blind Token.unplaced peek peek := by
  intro s
  simp only [peek, Stream.next_unplaced]
  rfl

theorem blind_peekKind : Blind (fun kind => kind) peekKind peekKind := by
  intro s
  simp only [peekKind, Stream.next_unplaced]
  rfl

theorem blind_advance : Blind Token.unplaced advance advance := by
  intro s
  obtain ⟨last, ahead, stop⟩ := s
  cases ahead with
  | nil => rfl
  | cons token rest => rfl

theorem blind_get : Blind Stream.unplaced get get :=
  fun _ => rfl

theorem blind_accept (kind : Token.Kind) :
    Blind (fun found => found) (accept kind) (accept kind) := by
  refine blind_peekKind.bind fun found => ?_
  split
  · exact blind_advance.bind fun _ => .pure _ true
  · exact .pure _ false

theorem blind_expect (kind : Token.Kind) (expected : Expectation) :
    Blind Token.unplaced (expect kind expected) (expect kind expected) := by
  refine blind_peekKind.bind fun found => ?_
  split
  · exact blind_advance
  · exact .fail expected

theorem blind_expectName (expected : Expectation) :
    Blind (fun name => name) (expectName expected) (expectName expected) :=
  (blind_expect _ expected).bind fun token => .pure _ token.lexeme

theorem blind_separated {f : α → α} {item item' : α → Reader α}
    (h : ∀ a, Blind f (item a) (item' (f a))) (close : Symbol) (trailing : Bool) (a : α) :
    Blind f (separated close trailing item a) (separated close trailing item' (f a)) := by
  refine blind_peekKind.bind fun found => ?_
  split
  · exact .pure f a
  · refine .loop (fun b => (h b).bind fun c => (blind_accept _).bind fun comma => ?_) a
    split
    · exact blind_peekKind.bind fun kind => .pure _ (c, _)
    · exact .pure _ (c, false)

section Expressions

variable {operand operand' expression expression' inner inner' : Reader Expr}

theorem blind_bounded (room : Nat) (e : Expr) :
    Blind Expr.unplaced (bounded room e) (bounded room e.unplaced) := by
  unfold bounded
  rw [Expr.height_unplaced]
  split
  · exact .pure _ e
  · exact blind_get.bind fun s => .blame _ s.last

theorem blind_chains (h : Blind Expr.unplaced operand operand') (room level : Nat) :
    Blind Expr.unplaced (chains room operand level) (chains room operand' level) := by
  induction level with
  | zero => exact h
  | succ level ih =>
      refine ih.bind fun first => .loop (fun left => ?_) first
      have hoperator : Blind (fun op => op) (operator? (level + 1)) (operator? (level + 1)) :=
        blind_peekKind.bind fun kind => .pure _ _
      refine hoperator.bind fun op => ?_
      cases op with
      | none => exact .pure _ (left, false)
      | some op =>
          exact blind_advance.bind fun token => ih.bind fun right =>
            (blind_bounded room (.binary token.position op left right)).bind fun e =>
              .pure _ (e, true)

/-- A name, a colon and an expression are put to the entries already read. -/
theorem blind_entry {name : Reader String} (hname : Blind (fun key => key) name name)
    (h : Blind Expr.unplaced expression expression') (expected : Expectation)
    (entries : Dict Expr) :
    Blind Expr.unplacedEntries
      (do
        let key ← name
        let _ ← expectSymbol .colon expected
        let value ← expression
        Pure.pure (Dict.insert entries key value))
      (do
        let key ← name
        let _ ← expectSymbol .colon expected
        let value ← expression'
        Pure.pure (Dict.insert (Expr.unplacedEntries entries) key value)) := by
  refine hname.bind fun key => (blind_expect _ expected).bind fun _ => h.bind fun value => ?_
  rw [← Expr.unplacedEntries_insert]
  exact .pure _ (Dict.insert entries key value)

theorem blind_argument (h : Blind Expr.unplaced expression expression') (args : Dict Expr) :
    Blind Expr.unplacedEntries (argument expression args)
      (argument expression' (Expr.unplacedEntries args)) :=
  blind_entry (blind_expectName _) h _ args

theorem blind_invocation (h : Blind Expr.unplaced expression expression') :
    Blind (fun result => (result.1, Expr.unplacedEntries result.2)) (invocation expression)
      (invocation expression') := by
  refine (blind_expectName _).bind fun tool => (blind_expect _ _).bind fun _ => ?_
  exact (blind_separated (blind_argument h) _ _ []).bind fun args =>
    (blind_expect _ _).bind fun _ => .pure _ (tool, args)

theorem blind_items (h : Blind Expr.unplaced expression expression') (close : Symbol)
    (trailing : Bool) :
    Blind Expr.unplacedItems (separated close trailing (item expression) [])
      (separated close trailing (item expression') []) := by
  refine blind_separated (f := Expr.unplacedItems) (fun items => h.bind fun e => ?_) close
    trailing []
  rw [← Expr.unplacedItems_concat]
  exact .pure _ (items ++ [e])

theorem blind_callArguments (h : Blind Expr.unplaced expression expression') :
    Blind Expr.unplacedItems (callArguments expression) (callArguments expression') :=
  (blind_items h _ _).bind fun args => (blind_expect _ _).bind fun _ => .pure _ args

theorem blind_propertyName : Blind (fun name => name) propertyName propertyName := by
  refine blind_peekKind.bind fun kind => ?_
  split
  · exact blind_advance.bind fun token => .pure _ token.lexeme
  · exact blind_advance.bind fun token => .pure _ token.lexeme
  · exact .fail _

theorem blind_property (h : Blind Expr.unplaced expression expression') (entries : Dict Expr) :
    Blind Expr.unplacedEntries (property expression entries)
      (property expression' (Expr.unplacedEntries entries)) :=
  blind_entry blind_propertyName h _ entries

theorem blind_primaryFrom (h : Blind Expr.unplaced expression expression') (token : Token) :
    Blind Expr.unplaced (primaryFrom expression token)
      (primaryFrom expression' token.unplaced) := by
  obtain ⟨kind, lexeme, pos⟩ := token
  unfold primaryFrom Token.unplaced
  dsimp only
  split
  · exact .pure Expr.unplaced (.literal pos (.bool true))
  · exact .pure Expr.unplaced (.literal pos (.bool false))
  · exact .pure Expr.unplaced (.literal pos .null)
  · split
    · next n _ => exact .pure Expr.unplaced (.literal pos (.number n))
    · exact .blame _ ⟨.number, lexeme, pos⟩
  · exact .pure Expr.unplaced (.literal pos (.string lexeme))
  · exact (blind_expect _ _).bind fun _ => (blind_expect _ _).bind fun _ =>
      .pure Expr.unplaced (.apply pos _ [])
  · exact (blind_expect _ _).bind fun _ => (blind_callArguments h).bind fun args =>
      .pure Expr.unplaced (.apply pos _ args)
  · refine (blind_accept _).bind fun called => ?_
    split
    · exact (blind_callArguments h).bind fun args => .pure Expr.unplaced (.apply pos lexeme args)
    · exact .pure Expr.unplaced (.ref pos lexeme)
  · exact (blind_invocation h).bind fun found => .pure Expr.unplaced (.tool pos found.1 found.2)
  · exact h.bind fun e => (blind_expect _ _).bind fun _ => .pure _ e
  · exact (blind_items h _ _).bind fun items => (blind_expect _ _).bind fun _ =>
      .pure Expr.unplaced (.list pos items)
  · exact (blind_separated (blind_property h) _ _ []).bind fun entries =>
      (blind_expect _ _).bind fun _ => .pure Expr.unplaced (.object pos entries)
  · exact .blame _ ⟨_, lexeme, pos⟩
  · exact .blame _ ⟨_, lexeme, pos⟩

theorem blind_accessed (h : Blind Expr.unplaced expression expression') (room : Nat) :
    Blind Expr.unplaced (accessed room expression) (accessed room expression') := by
  have hprimary : Blind Expr.unplaced (primary expression) (primary expression') :=
    blind_peek.bind fun token => blind_advance.bind fun _ => blind_primaryFrom h token
  refine hprimary.bind fun first => .loop (fun subject => ?_) first
  refine blind_peekKind.bind fun kind => ?_
  split
  · exact blind_advance.bind fun token => h.bind fun place => (blind_expect _ _).bind fun _ =>
      (blind_bounded room (.index token.position subject place)).bind fun e => .pure _ (e, true)
  · exact blind_advance.bind fun token => (blind_expectName _).bind fun property =>
      (blind_bounded room (.member token.position subject property)).bind fun e =>
        .pure _ (e, true)
  · exact .pure _ (subject, false)

theorem blind_operandWith (hinner : Blind Expr.unplaced inner inner')
    (h : Blind Expr.unplaced expression expression') (room : Nat) :
    Blind Expr.unplaced (operandWith room inner expression)
      (operandWith room inner' expression') := by
  refine blind_peekKind.bind fun kind => ?_
  split
  · exact blind_advance.bind fun token => hinner.bind fun e =>
      .pure Expr.unplaced (.unary token.position _ e)
  · exact blind_accessed h room

theorem blind_operand (room : Nat) :
    Blind Expr.unplaced (Grammar.operand room) (Grammar.operand room) := by
  induction room with
  | zero => exact blind_operandWith (.fail _) (.fail _) 0
  | succ room ih => exact blind_operandWith ih (blind_chains ih room loosest) (room + 1)

theorem blind_expression (room : Nat) :
    Blind Expr.unplaced (Grammar.expression room) (Grammar.expression room) := by
  cases room with
  | zero => exact .fail _
  | succ room => exact blind_chains (blind_operand room) room loosest

end Expressions

section Statements

variable {statement : Reader Stmt} {expression : Reader Expr}

theorem blind_follow (h : Blind Stmt.unplaced statement statement) (stmts : List Stmt) :
    Blind (fun result => (Stmt.unplacedBlock result.1, result.2)) (follow statement stmts)
      (follow statement (Stmt.unplacedBlock stmts)) := by
  refine h.bind fun stmt => ?_
  rw [← Stmt.unplacedBlock_concat]
  exact .pure _ (stmts ++ [stmt], true)

theorem blind_block (h : Blind Stmt.unplaced statement statement) (kind : Block) :
    Blind Stmt.unplacedBlock (block statement kind) (block statement kind) := by
  refine .loop (f := Stmt.unplacedBlock) (fun stmts => ?_) []
  refine blind_peekKind.bind fun found => ?_
  split
  · split
    · exact .pure _ (stmts, false)
    · exact blind_follow h stmts
  · exact .fail _
  · exact blind_follow h stmts

theorem blind_statementWith {block : Block → Reader (List Stmt)}
    (h : Blind Expr.unplaced expression expression)
    (hblock : ∀ kind, Blind Stmt.unplacedBlock (block kind) (block kind)) :
    Blind Stmt.unplaced (statementWith expression block) (statementWith expression block) := by
  refine blind_peekKind.bind fun kind => ?_
  split
  · exact blind_advance.bind fun token => (blind_expectName _).bind fun name =>
      (blind_expect _ _).bind fun _ => h.bind fun e =>
        .pure Stmt.unplaced (.bind token.position name e)
  · exact blind_advance.bind fun token => (blind_invocation h).bind fun found =>
      .pure Stmt.unplaced (.call token.position found.1 found.2)
  · refine blind_advance.bind fun token => h.bind fun e => (blind_expect _ _).bind fun _ =>
      (hblock _).bind fun yes => (blind_accept _).bind fun found => ?_
    have hend (no : Option (List Stmt)) :
        Blind Stmt.unplaced
          (do
            let _ ← expectKeyword .kwEnd
            Pure.pure (Stmt.branch token.position e yes no))
          (do
            let _ ← expectKeyword .kwEnd
            Pure.pure (Stmt.branch .start e.unplaced (Stmt.unplacedBlock yes)
              (no.map Stmt.unplacedBlock))) := by
      refine (blind_expect _ _).bind fun _ => ?_
      cases no with
      | none => exact .pure Stmt.unplaced (.branch token.position e yes none)
      | some no => exact .pure Stmt.unplaced (.branch token.position e yes (some no))
    split
    · exact ((hblock .no).map (g := Option.map Stmt.unplacedBlock) fun _ => rfl).bind hend
    · exact hend none
  · exact blind_advance.bind fun token => (blind_expectName _).bind fun name =>
      (blind_expect _ _).bind fun _ => h.bind fun e => (blind_expect _ _).bind fun _ =>
        (hblock _).bind fun body => (blind_expect _ _).bind fun _ =>
          .pure Stmt.unplaced (.each token.position name e body)
  · refine h.bind fun e => ?_
    rw [Expr.position_unplaced]
    exact .pure Stmt.unplaced (.expr e.position e)

theorem blind_statement (room : Nat) :
    Blind Stmt.unplaced (Grammar.statement room) (Grammar.statement room) := by
  induction room with
  | zero => exact blind_statementWith (blind_expression 0) fun _ => .fail _
  | succ room ih => exact blind_statementWith (blind_expression _) (blind_block ih)

theorem blind_statements : Blind Stmt.unplacedBlock statements statements := by
  refine .loop (f := Stmt.unplacedBlock) (fun stmts => ?_) []
  refine blind_peekKind.bind fun kind => ?_
  split
  · exact .pure _ (stmts, false)
  · exact blind_follow (blind_statement maxNesting) stmts

end Statements

end Grammar

end ToolScript
