import ToolScript.Proofs.Printing.Statement

/-!
# Written scripts are read back

The text of a script is read as its joined form. So a script is read back as it is, up to
positions, exactly if it is separate; an expression on its own is always read back.
-/

namespace ToolScript

open Lexer Grammar

variable {depth : Nat} {guard : Bool}

theorem Stmt.endsInExpression_of_unplaced {stmt stmt' : Stmt}
    (h : stmt'.unplaced = stmt.joined.unplaced) :
    stmt'.endsInExpression = stmt.endsInExpression := by
  have hunplaced (s : Stmt) : s.unplaced.endsInExpression = s.endsInExpression := by
    cases s with
    | branch _ _ _ no => cases no <;> rfl
    | _ => rfl
  have hjoined : stmt.joined.endsInExpression = stmt.endsInExpression := by
    cases stmt with
    | branch _ _ _ no => cases no <;> rfl
    | _ => rfl
  rw [← hunplaced stmt', h, hunplaced, hjoined]

/-- The outline of a first statement and that of the others make up one of them all, unless a
variable at the end of the first meets a parenthesis. -/
theorem Paragraph.cons {stmts rest : List Stmt} {first : Stmt} {us vs : List Token}
    (hjoined : Stmt.joinedBlock stmts = first.joined :: Stmt.joinedBlock rest)
    (hroom : Stmt.blockRoom stmts = max (first.roomAt guard) (Stmt.blockRoom rest))
    (hbegins : Begins (Stmt.parenAhead stmts) us) (hfirst : Sentence guard first us)
    (hrest : Paragraph rest vs)
    (hcall : first.endsInExpression = true → Stmt.parenAhead rest = true →
      endsInName us = false) : Paragraph stmts (us ++ vs) := by
  obtain ⟨first', hfirst', o, ho⟩ := hfirst.tree
  obtain ⟨rest', hrest', o', ho'⟩ := hrest.tree
  have hstops (hexpr : first'.endsInExpression = true) : Stops levels us vs := by
    rw [Stmt.endsInExpression_of_unplaced hfirst'] at hexpr
    exact hrest.begins.stops (hcall hexpr)
  exact {
    tree := ⟨first' :: rest', by simp only [hjoined, Stmt.unplacedBlock, hfirst', hrest'],
      .cons o o' hstops, by simp only [Outline.room, ho, ho', hroom]⟩
    begins := hbegins.append (ne_nil_of_begins o.begins_first) vs }

theorem Sentence.cons {stmt : Stmt} {rest : List Stmt} {us vs : List Token}
    (h : Sentence (Stmt.needsGuard rest) stmt us) (hrest : Paragraph rest vs)
    (hruns : Stmt.runsOn stmt rest = false) : Paragraph (stmt :: rest) (us ++ vs) := by
  refine .cons (Stmt.joinedBlock_cons hruns) rfl h.begins h hrest fun hexpr hparen => ?_
  cases hname : endsInName us with
  | false => rfl
  | true =>
      obtain ⟨href, hguard⟩ := h.name hexpr hname
      simp [Stmt.runsOn, href, hguard, hparen] at hruns

/-- A name in front of parentheses around an expression calls a function. -/
theorem RereadGroup.applied {e : Expr} {f : Token} {tokens : List Token}
    (h : RereadGroup e tokens) (hf : f.IsName) :
    ∃ e' : Expr, e'.unplaced = e.unplaced ∧
      ∃ d : Derivation (.chain levels (.apply f.position f.lexeme [e'])) (f :: tokens),
        d.room = e.textRoom + 1 := by
  obtain ⟨t, ts, u, rfl, ht, hts, hu⟩ := h
  obtain ⟨e', he', d, hd⟩ := hts.loosened
  have hcallee : f.callee? = some f.lexeme := by simp [Token.callee?, hf]
  obtain ⟨d', hd'⟩ := (Derivation.operand (.primary (.apply hcallee ht (.lastItem d) hu))).loosen
    (Nat.zero_le levels)
  exact ⟨e', he', d', hd'.trans (congrArg (· + 1) hd)⟩

theorem RereadGroup.not_endsInName {e : Expr} {tokens : List Token} (h : RereadGroup e tokens)
    (us : List Token) : endsInName (us ++ tokens) = false := by
  obtain ⟨t, ts, u, rfl, -, -, hu⟩ := h
  rw [← List.cons_append, ← List.append_assoc]
  exact endsInName_concat _ (by simp [hu])

/-- A text that begins with a name does not go on with the statement before it. -/
theorem statementText_eq {e : Expr} {name tail : String} (h : isWord name = true)
    (htext : e.text = name ++ tail) : e.statementText = e.text := by
  have hstart (c : Char) (cs : List Char) (hcs : e.text.toList = c :: cs) :
      isNameStart c = true := by
    unfold isWord at h
    split at h
    · cases h
    · next first others hname =>
        obtain ⟨rfl, -⟩ : first = c ∧ _ := by simpa [htext, hname] using hcs
        exact (Bool.and_eq_true_iff.1 h).1
  unfold Expr.statementText
  split
  · next cs hcs => exact absurd (hstart _ cs hcs) (by decide)
  · next cs hcs => exact absurd (hstart _ cs hcs) (by decide)
  · next cs hcs => exact absurd (hstart _ cs hcs) (by decide)
  · rfl

theorem statementText_ref {name : String} (h : isWord name = true) (pos : Position) :
    (Expr.ref pos name).statementText = name :=
  statementText_eq h (String.append_empty).symm

theorem statementText_apply {name : String} (h : isWord name = true) (pos : Position)
    (args : List Expr) :
    (Expr.apply pos name args).statementText = (Expr.apply pos name args).text :=
  statementText_eq h rfl

/-- A statement that does not begin with a parenthesis by itself and is written with one has
got it from the statement behind it. -/
theorem text_of_beginsWithParen {e : Expr} {pos : Position}
    (hopens : (Stmt.expr pos e).opensWithParen = false)
    (hbegins : (Stmt.expr pos e).beginsWithParen guard = true) :
    Stmt.guarded guard e.statementText = parenthesized e.text := by
  simp only [Stmt.opensWithParen, beq_eq_false_iff_ne, ne_eq] at hopens
  simp only [Stmt.beginsWithParen, beq_iff_eq] at hbegins
  rcases statementText_cases e with ⟨htext, -⟩ | htext
  · rw [htext] at hopens hbegins ⊢
    rcases guarded_cases guard e.text with ⟨heq, -⟩ | heq
    · rw [heq] at hbegins
      exact absurd hbegins hopens
    · exact heq
  · rw [htext] at hopens
    exact absurd (by simp [parenthesized]) hopens

/-- The tokens have an outline of a statement that took another one. -/
structure Merged (stmt : Stmt) (tokens : List Token) : Prop where
  sentence : Sentence false stmt tokens
  begins : ∀ paren, Begins paren tokens
  name : endsInName tokens = false
  joined : stmt.joined = stmt

theorem Merged.of_bind {e : Expr} {t n u f : Token} {tokens : List Token} (ht : t.IsWord .kwLet)
    (hn : n.IsName) (hu : u.Is .assign) (hf : f.IsName) (h : RereadGroup e tokens)
    (pos place : Position) :
    Merged (.bind pos n.lexeme (.apply place f.lexeme [e]))
      ([t, n, u, f] ++ tokens) := by
  obtain ⟨e', he', d, hd⟩ := h.applied hf
  have hname := h.not_endsInName [t, n, u, f]
  have hbegins (paren : Bool) : Begins paren ([t, n, u, f] ++ tokens) := .of_word ht rfl
  have htree : (Stmt.bind t.position n.lexeme (.apply f.position f.lexeme [e'])).unplaced =
      (Stmt.bind pos n.lexeme (.apply place f.lexeme [e])).joined.unplaced := by
    simp only [Stmt.joined, Stmt.unplaced, Expr.unplaced, Expr.unplacedItems, he']
  have hroom : (Outline.bind ht hn hu d).room =
      (Stmt.bind pos n.lexeme (.apply place f.lexeme [e])).roomAt false := by
    simp only [Outline.room, Stmt.roomAt, guarded_false, Expr.roomAs_text, hd, Expr.textRoom,
      Expr.textRoomItems, Nat.max_zero]
  exact {
    sentence := {
      tree := ⟨_, htree, .bind ht hn hu d, hroom⟩
      begins := hbegins _
      name := fun _ h => by
        rw [hname] at h
        cases h }
    begins := hbegins
    name := hname
    joined := rfl }

theorem Merged.of_expr {e : Expr} {f : Token} {tokens : List Token} (hf : f.IsName)
    (hword : isWord f.lexeme = true) (h : RereadGroup e tokens) (pos place : Position) :
    Merged (.expr pos (.apply place f.lexeme [e])) ([f] ++ tokens) := by
  obtain ⟨e', he', d, hd⟩ := h.applied hf
  have hname := h.not_endsInName [f]
  have hbegins (paren : Bool) : Begins paren ([f] ++ tokens) := by
    apply Begins.of_ends
    rw [List.singleton_append, firstKind_cons, hf]
    rfl
  have htree : (Stmt.expr f.position (.apply f.position f.lexeme [e'])).unplaced =
      (Stmt.expr pos (.apply place f.lexeme [e])).joined.unplaced := by
    simp only [Stmt.joined, Stmt.unplaced, Expr.unplaced, Expr.unplacedItems, he']
  have hcall : firstKind ([f] ++ tokens) ≠ .keyword .kwCall := by simp [hf]
  have hroom : (Outline.expr d hcall).room =
      (Stmt.expr pos (.apply place f.lexeme [e])).roomAt false := by
    simp only [Outline.room, Stmt.roomAt, guarded_false, statementText_apply hword,
      Expr.roomAs_text, hd, Expr.textRoom, Expr.textRoomItems, Nat.max_zero]
  exact {
    sentence := {
      tree := ⟨_, htree, .expr d hcall, hroom⟩
      begins := hbegins _
      name := fun _ h => by
        rw [hname] at h
        cases h }
    begins := hbegins
    name := hname
    joined := rfl }

/-- A statement that takes the next one takes the room of both. -/
theorem Stmt.roomAt_taking {stmt next : Stmt} {rest : List Stmt}
    (hruns : runsOn stmt (next :: rest) = true) (h : stmt.WellFormed) :
    (taking stmt next).roomAt false =
      max (stmt.roomAt (needsGuard (next :: rest))) (next.roomAt (needsGuard rest)) := by
  simp only [runsOn, parenAhead, Bool.and_eq_true, Bool.not_eq_true'] at hruns
  obtain ⟨⟨href, hguard⟩, hparen⟩ := hruns
  cases next with
  | bind | call | branch | each => cases hparen
  | expr place e =>
      have hnext : (Stmt.expr place e).roomAt (needsGuard rest) = e.textRoom + 2 := by
        simp only [roomAt, text_of_beginsWithParen hguard hparen, Expr.roomAs_parenthesized]
      rw [hguard, hnext]
      unfold endsInRef at href
      split at href
      · simp only [taking, roomAt, guarded_false, Expr.roomAs_text, Expr.textRoom,
          Expr.textRoomItems]
        omega
      · next pos ref f =>
          have hf : (Expr.ref ref f).statementText = (Expr.ref ref f).text :=
            statementText_ref h.1 ref
          simp only [taking, roomAt, guarded_false, statementText_apply h.1, hf, Expr.roomAs_text,
            Expr.textRoom, Expr.textRoomItems]
          omega
      · cases href

/-- The text of a statement that runs on and of the next one. -/
theorem cuts_merged {stmt next : Stmt} {rest : List Stmt}
    (hruns : Stmt.runsOn stmt (next :: rest) = true) (h : stmt.WellFormed)
    (hnext : next.WellFormed) :
    Cuts Free ((stmt.textAt depth (Stmt.needsGuard (next :: rest))).toList ++
      (next.textAt depth (Stmt.needsGuard rest)).toList)
      (Merged (Stmt.taking stmt next)) := by
  simp only [Stmt.runsOn, Stmt.parenAhead, Bool.and_eq_true, Bool.not_eq_true'] at hruns
  obtain ⟨⟨href, hguard⟩, hparen⟩ := hruns
  cases next with
  | bind | call | branch | each => cases hparen
  | expr place e =>
      have htext := text_of_beginsWithParen hguard hparen
      have hgroup : Cuts Free ((Stmt.expr place e).textAt depth (Stmt.needsGuard rest)).toList
          (RereadGroup e) := by
        simp only [Stmt.textAt, htext]
        exact cuts_line ((cuts_parenthesized (e.cuts_text hnext)).weaken Apart) depth
      rw [hguard]
      unfold Stmt.endsInRef at href
      split at href
      · next pos name ref f =>
          have hline : (Stmt.bind pos name (.ref ref f)).textAt depth false =
              Stmt.indentation depth ++ ("LET " ++ name ++ " = " ++ f) ++ "\n" := by
            simp [Stmt.textAt, Stmt.guarded, String.append_assoc]
          rw [hline]
          apply ((cuts_line (cuts_let h.1 (cuts_identifier h.2)) depth).followed hgroup).imp
          rintro _ ⟨_, tokens, rfl, ⟨t, n, u, _, rfl, ht, hn, rfl, hu, v, rfl, hv, rfl⟩, htokens⟩
          exact .of_bind ht hn hu hv htokens pos ref
      · next pos ref f =>
          have hline : (Stmt.expr pos (.ref ref f)).textAt depth false =
              Stmt.indentation depth ++ f ++ "\n" := by
            simp [Stmt.textAt, Stmt.guarded, statementText_ref h.1]
          rw [hline]
          apply ((cuts_line (cuts_identifier h) depth).followed hgroup).imp
          rintro _ ⟨_, tokens, rfl, ⟨v, rfl, hv, rfl⟩, htokens⟩
          exact .of_expr hv h.1 htokens pos ref
      · cases href

namespace Stmt

mutual

/-- The text of a statement is cut into tokens that have an outline of it. -/
theorem cuts_textAt (stmt : Stmt) (depth : Nat) (guard : Bool) (h : stmt.WellFormed) :
    Cuts Free (stmt.textAt depth guard).toList (Sentence guard stmt) := by
  cases stmt with
  | bind pos name e => exact cuts_bind h.1 h.2 pos
  | call pos tool args => exact cuts_call h.1 h.2.1 h.2.2.1 h.2.2.2 pos
  | branch pos e yes no =>
      cases no with
      | none => exact cuts_branch h.1 (cuts_blockText yes (depth + 1) h.2) pos
      | some no =>
          exact cuts_branches h.1 (cuts_blockText yes (depth + 1) h.2.1)
            (cuts_blockText no (depth + 1) h.2.2) pos
  | each pos name e body => exact cuts_each h.1 h.2.1 (cuts_blockText body (depth + 1) h.2.2) pos
  | expr pos e => exact cuts_expr h pos
termination_by structural stmt

/-- The text of statements is cut into tokens that have an outline of their joined form. -/
theorem cuts_blockText (stmts : List Stmt) (depth : Nat) (h : WellFormedBlock stmts) :
    Cuts Free (blockText depth stmts).toList (Paragraph stmts) := by
  match stmts with
  | [] => exact .nil Free ⟨⟨[], rfl, .none, rfl⟩, .of_ends rfl⟩
  | stmt :: rest =>
      have hfirst := cuts_textAt stmt depth (needsGuard rest) h.1
      have hrest := cuts_blockText rest depth h.2
      simp only [blockText, String.toList_append]
      cases hruns : runsOn stmt rest with
      | false =>
          apply (hfirst.followed hrest).imp
          rintro _ ⟨us, vs, rfl, hus, hvs⟩
          exact hus.cons hvs hruns
      | true =>
          match rest with
          | [] => simp [runsOn, parenAhead] at hruns
          | next :: rest =>
              have hmerged : Cuts Free ((stmt.textAt depth _).toList ++ _)
                  (Merged (taking stmt next)) :=
                cuts_merged hruns h.1 h.2.1
              have hothers := cuts_blockText rest depth h.2.2
              simp only [blockText, String.toList_append, ← List.append_assoc]
              apply (hmerged.followed hothers).imp
              rintro _ ⟨us, vs, rfl, hus, hvs⟩
              refine .cons ?_ ?_ (hus.begins _) hus.sentence hvs fun _ _ => hus.name
              · simp only [joinedBlock, hruns, if_true, hus.joined]
              · simp only [blockRoom, roomAt_taking hruns h.1, Nat.max_assoc]
termination_by structural stmts

end

end Stmt

/-- The text of a script is read as its joined form, hence as the script itself up to positions
exactly if no statement runs on. The text of an expression is read as the expression. -/
theorem parse_text (script : Script) (e : Expr) :
    (script.WellFormed →
      (∀ p ∈ script.placed, ∀ e ∈ p.2.direct, p.1 + 2 + 2 * e.height ≤ maxNesting) →
      ∃ read, Script.parse script.text = .ok read ∧ read.unplaced = script.joined.unplaced ∧
        (read.unplaced = script.unplaced ↔ script.separate = true)) ∧
    (e.WellFormed → 1 + 2 * e.height ≤ maxNesting →
      ∃ read, Expr.parse e.text = .ok read ∧ read.unplaced = e.unplaced) := by
  constructor
  · intro h hroomy
    obtain ⟨tokens, hparagraph, htokens⟩ :=
      (Stmt.cuts_blockText script.statements 0 h).tokenizes trivial
    obtain ⟨stmts, hstmts, o, ho⟩ := hparagraph.tree
    have hread : (Script.mk stmts).unplaced = script.joined.unplaced := congrArg Script.mk hstmts
    have hroom : o.room ≤ maxNesting := ho ▸ Stmt.blockRoom_le script.statements 0 hroomy
    refine ⟨⟨stmts⟩, (Script.parse_of_outline htokens o).1 hroom, hread, ?_⟩
    rw [hread]
    exact script.unplaced_joined_eq_iff
  · intro h hheight
    obtain ⟨tokens, hreread, htokens⟩ := (e.cuts_text h).tokenizes apart_nil
    obtain ⟨read, hread, d, hd⟩ := hreread.loosened
    have hlt := e.textRoom_lt
    exact ⟨read, (Expr.parse_of_derivation htokens d).1 (by omega), hread⟩

theorem parse_text_guarded :
    let e : Expr := .unary .start .not (.literal .start (.bool true))
    let script : Script := ⟨[.bind .start "a" (.ref .start "b"), .expr .start e]⟩
    script.text = "LET a = (b)\n(NOT TRUE)\n" ∧
      (∃ read, Script.parse script.text = .ok read ∧ read.unplaced = script.unplaced) ∧
      ∃ read, Expr.parse e.text = .ok read ∧ read.unplaced = e.unplaced := by
  intro e script
  have hwell : script.WellFormed :=
    ⟨⟨⟨by decide, by decide⟩, by decide, by decide⟩, trivial, trivial⟩
  have hroomy : ∀ p ∈ script.placed, ∀ e ∈ p.2.direct, p.1 + 2 + 2 * e.height ≤ maxNesting := by
    simp [script, e, Script.placed, Stmt.placedIn, Stmt.placed, Stmt.direct, Expr.height,
      maxNesting]
  obtain ⟨hscript, hexpr⟩ := parse_text script e
  obtain ⟨read, hread, -, hiff⟩ := hscript hwell hroomy
  exact ⟨by decide, ⟨read, hread, hiff.2 (by decide)⟩, hexpr trivial (by decide)⟩

/-- The second of three statements gets parentheses because of the third and is then read as
the argument of a call in the first. -/
theorem parse_text_merged :
    let script : Script := ⟨[.bind .start "a" (.ref .start "b"), .expr .start (.ref .start "x"),
      .expr .start (.unary .start .not (.literal .start (.bool true)))]⟩
    script.WellFormed ∧
      (∀ p ∈ script.placed, ∀ e ∈ p.2.direct, p.1 + 2 + 2 * e.height ≤ maxNesting) ∧
      script.text = "LET a = b\n(x)\n(NOT TRUE)\n" ∧
      ¬ ∃ read, Script.parse script.text = .ok read ∧ read.unplaced = script.unplaced := by
  intro script
  refine ⟨?_, ?_, by decide, ?_⟩
  · exact ⟨⟨⟨by decide, by decide⟩, by decide, by decide⟩, ⟨by decide, by decide⟩, trivial, trivial⟩
  · simp [script, Script.placed, Stmt.placedIn, Stmt.placed, Stmt.direct, Expr.height, maxNesting]
  · have hparse : Script.parse script.text = .ok ⟨[
        .bind ⟨1, 1⟩ "a" (.apply ⟨1, 9⟩ "b" [.ref ⟨2, 2⟩ "x"]),
        .expr ⟨3, 2⟩ (.unary ⟨3, 2⟩ .not (.literal ⟨3, 6⟩ (.bool true)))]⟩ := by
      cbv
    rintro ⟨read, hread, heq⟩
    rw [hparse] at hread
    cases hread
    exact absurd (congrArg (·.statements.length) heq) (by decide)

end ToolScript
