import ToolScript.Proofs.Printing.Named
import ToolScript.Proofs.Printing.RoundTrip

/-!
# Which written texts are accepted

The text of a script or of an expression that was read is refused for its nesting or not at
all, and it is refused exactly if the room for it is more than the largest one. That happens
to trees that were read themselves: each operator before an operand takes one unit of room in
the source, and two once its parentheses are written.
-/

namespace ToolScript

open Lexer Grammar

/-- The failure of a text is that it is nested too deeply. -/
def Failure.IsNesting (failure : Failure) : Prop :=
  ∃ found, failure = Grammar.Fault.failure ⟨.lessNesting, found⟩

/-- What the text of a script is read as, if there is room for it. -/
theorem Script.parse_text_named {script : Script} (h : script.named.WellFormed) :
    (script.textRoom ≤ maxNesting →
      ∃ read, Script.parse script.text = .ok read ∧
        read.unplaced = script.named.joined.unplaced) ∧
    (¬ script.textRoom ≤ maxNesting →
      ∃ failure, Script.parse script.text = .error failure ∧ failure.IsNesting) := by
  obtain ⟨tokens, hparagraph, htokens⟩ :=
    (Stmt.cuts_blockText script.named.statements 0 h).tokenizes trivial
  obtain ⟨stmts, hstmts, o, ho⟩ := hparagraph.tree
  change Tokenizes script.named.text tokens at htokens
  change o.room = script.named.textRoom at ho
  rw [script.text_named] at htokens
  rw [script.textRoom_named] at ho
  obtain ⟨hread, hrefused⟩ := @Script.parse_of_outline _ _ ⟨stmts⟩ htokens o
  rw [ho] at hread hrefused
  refine ⟨fun hroom => ⟨⟨stmts⟩, hread hroom, congrArg Script.mk hstmts⟩, fun hroom => ?_⟩
  obtain ⟨found, hfound⟩ := hrefused hroom
  exact ⟨_, hfound, found, rfl⟩

/-- What the text of an expression is read as, if there is room for it. -/
theorem Expr.parse_text_named {e : Expr} (h : e.named.WellFormed) :
    (e.textRoom < maxNesting →
      ∃ read, Expr.parse e.text = .ok read ∧ read.unplaced = e.named.unplaced) ∧
    (¬ e.textRoom < maxNesting →
      ∃ failure, Expr.parse e.text = .error failure ∧ failure.IsNesting) := by
  obtain ⟨tokens, hreread, htokens⟩ := (e.named.cuts_text h).tokenizes apart_nil
  obtain ⟨read, hunplaced, d, hd⟩ := hreread.loosened
  rw [e.alike_named.text] at htokens
  rw [e.alike_named.room] at hd
  obtain ⟨hread, hrefused⟩ := Expr.parse_of_derivation htokens d
  rw [hd] at hread hrefused
  refine ⟨fun hroom => ⟨read, hread hroom, hunplaced⟩, fun hroom => ?_⟩
  obtain ⟨found, hfound⟩ := hrefused hroom
  exact ⟨_, hfound, found, rfl⟩

/-- What is accepted where there is room, and refused for its nesting where there is none, is
refused for nothing else. -/
theorem accepted_iff_room {α : Type} {parsed : Except Failure α} {Q : α → Prop} {room : Prop}
    (haccepts : room → ∃ read, parsed = .ok read ∧ Q read)
    (hrefuses : ¬ room → ∃ failure, parsed = .error failure ∧ failure.IsNesting) :
    ((∃ read, parsed = .ok read) ↔ room) ∧
      ∀ failure, parsed = .error failure → failure.IsNesting := by
  by_cases hroom : room
  · obtain ⟨read, rfl, -⟩ := haccepts hroom
    exact ⟨iff_of_true ⟨read, rfl⟩ hroom, by simp⟩
  · obtain ⟨failure, rfl, hnesting⟩ := hrefuses hroom
    refine ⟨iff_of_false (by simp) hroom, fun _ heq => ?_⟩
    cases heq
    exact hnesting

/-- The text of what was read is accepted exactly if there is room for it, and where it is
refused that is for its nesting and nothing else. -/
theorem text_accepted_iff (source : String) :
    (∀ script, Script.parse source = .ok script →
      ((∃ read, Script.parse script.text = .ok read) ↔ script.textRoom ≤ maxNesting) ∧
      ∀ failure, Script.parse script.text = .error failure → failure.IsNesting) ∧
    ∀ e, Expr.parse source = .ok e →
      ((∃ read, Expr.parse e.text = .ok read) ↔ e.textRoom < maxNesting) ∧
      ∀ failure, Expr.parse e.text = .error failure → failure.IsNesting := by
  constructor
  · intro script h
    obtain ⟨haccepts, hrefuses⟩ := Script.parse_text_named (Script.wellFormed_named h)
    exact accepted_iff_room haccepts hrefuses
  · intro e h
    obtain ⟨haccepts, hrefuses⟩ := Expr.parse_text_named (Expr.wellFormed_named h)
    exact accepted_iff_room haccepts hrefuses

theorem text_accepted_iff_negation :
    let e : Expr := .unary ⟨1, 1⟩ .not (.ref ⟨1, 5⟩ "x")
    let script : Script := ⟨[.expr ⟨1, 1⟩ e]⟩
    (Expr.parse "NOT x" = .ok e ∧ e.text = "(NOT x)" ∧ e.textRoom = 2 ∧
      ∃ read, Expr.parse e.text = .ok read) ∧
    Script.parse "NOT x" = .ok script ∧ script.text = "(NOT x)\n" ∧ script.textRoom = 3 ∧
      ∃ read, Script.parse script.text = .ok read := by
  obtain ⟨he, hscript⟩ : Expr.parse "NOT x" = .ok (.unary ⟨1, 1⟩ .not (.ref ⟨1, 5⟩ "x")) ∧
      Script.parse "NOT x" =
        .ok ⟨[.expr ⟨1, 1⟩ (.unary ⟨1, 1⟩ .not (.ref ⟨1, 5⟩ "x"))]⟩ := by
    constructor <;> cbv
  intro e script
  obtain ⟨hscripts, hexprs⟩ := text_accepted_iff "NOT x"
  exact ⟨⟨he, by decide, by decide, (hexprs e he).1.2 (by decide)⟩,
    hscript, by decide, by decide, (hscripts script hscript).1.2 (by decide)⟩

/-- `TRUE` with `n` negations in front. -/
def negations : Nat → List Char
  | 0 => Keyword.kwTrue.spelling.toList
  | n + 1 => UnaryOp.not.lead ++ negations n

/-- Each negation takes one unit of room in the source and two in the text of the tree. -/
theorem cuts_negations (n : Nat) : Cuts Apart (negations n) fun tokens =>
    ∃ e : Expr, e.textRoom = 2 * n ∧ ∃ d : Derivation (.chain 0 e) tokens, d.room = n := by
  induction n with
  | zero =>
      apply (cuts_keyword .kwTrue).imp
      rintro _ ⟨t, rfl, ht, -⟩
      have hvalue : t.literal? = some (.bool true) := by simp [Token.literal?, ht]
      exact ⟨.literal t.position (.bool true), rfl, .operand (.primary (.literal hvalue)), rfl⟩
  | succ n ih =>
      apply ((cuts_unaryOp .not).followed ih).imp
      rintro _ ⟨_, us, rfl, ⟨t, rfl, ht⟩, e, hroom, d, hd⟩
      refine ⟨.unary t.position .not e, ?_, .unary ht d, congrArg (· + 1) hd⟩
      rw [Expr.textRoom, hroom]
      omega

/-- Sixty-four negations are read, and the text of the tree is refused. -/
theorem text_of_negations_refused : ∃ e, Expr.parse (String.ofList (negations 64)) = .ok e ∧
    ∃ failure, Expr.parse e.text = .error failure ∧ failure.IsNesting := by
  have hcut := cuts_negations 64
  rw [← String.toList_ofList (l := negations 64)] at hcut
  obtain ⟨tokens, ⟨e, hroom, d, hd⟩, htokens⟩ := hcut.tokenizes apart_nil
  obtain ⟨d', hd'⟩ := d.loosen (Nat.zero_le levels)
  have hparse : Expr.parse (String.ofList (negations 64)) = .ok e :=
    (Expr.parse_of_derivation htokens d').1 (by rw [hd', hd]; decide)
  refine ⟨e, hparse, (Expr.parse_text_named (Expr.wellFormed_named hparse)).2 ?_⟩
  rw [hroom]
  decide

end ToolScript
