import Mathlib
import ToolScript.Proofs.Grammar.Unplaced
import ToolScript.Proofs.Places
import ToolScript.Session

/-!
# Layout does not matter

Two texts whose tokens agree in kinds and lexemes are read as scripts that differ in their
positions only, or are refused in the same words. They run alike, up to the places of failures.
So blanks, line breaks and comments mean nothing, and a string means the same with either mark
and with any escapes.
-/

namespace ToolScript

open Grammar

variable {σ : Type}

/-- Both are the same script up to positions, or both are refused by the grammar with the same
message and the same text found. -/
inductive ReadAlike : Except Failure Script → Except Failure Script → Prop
  | scripts {script other : Script} (h : script.unplaced = other.unplaced) :
      ReadAlike (.ok script) (.ok other)
  | refused (message found : String) (p q : Position) :
      ReadAlike (.error ((Cause.grammar message found).located p))
        (.error ((Cause.grammar message found).located q))

/-- Faults with the same unplaced form are told in the same words. -/
theorem Grammar.Fault.readAlike {fault other : Fault} (h : fault.unplaced = other.unplaced) :
    ReadAlike (.error fault.failure) (.error other.failure) := by
  obtain ⟨expected, kind, lexeme, p⟩ := fault
  obtain ⟨expected', kind', lexeme', q⟩ := other
  obtain ⟨rfl, htoken⟩ := Fault.mk.inj h
  obtain ⟨rfl, rfl, -⟩ := Token.mk.inj htoken
  exact .refused expected.message (Token.describe ⟨kind, lexeme, p⟩) p q

/-- Tokens that agree up to positions are read alike. -/
theorem Script.ofTokens_readAlike {tokens others : List Token}
    (h : tokens.map Token.unplaced = others.map Token.unplaced) :
    ReadAlike (Script.ofTokens tokens) (Script.ofTokens others) := by
  have hresult := blind_statements.result tokens
  rw [h, blind_statements.result others] at hresult
  unfold Script.ofTokens
  generalize Grammar.statements.result tokens = read at hresult ⊢
  generalize Grammar.statements.result others = read' at hresult ⊢
  cases read with
  | ok stmts =>
      cases read' with
      | ok stmts' => exact .scripts (congrArg Script.mk (Except.ok.inj hresult).symm)
      | error fault' => cases hresult
  | error fault =>
      cases read' with
      | ok stmts' => cases hresult
      | error fault' => exact Fault.readAlike (Except.error.inj hresult).symm

/-- What is read alike runs alike. -/
theorem ReadAlike.runParsed {parsed other : Except Failure Script} (h : ReadAlike parsed other)
    (host : Host σ) (polls : Nat) (context : Context σ) :
    (Script.runParsed host polls context parsed).unplaced =
      (Script.runParsed host polls context other).unplaced := by
  cases h with
  | scripts h => exact Script.execute_congr h host polls context
  | refused message found p q => rfl

theorem Token.unplaced_of_pairs {tokens others : List Token}
    (h : tokens.map (fun token => (token.kind, token.lexeme)) =
      others.map fun token => (token.kind, token.lexeme)) :
    tokens.map Token.unplaced = others.map Token.unplaced := by
  have hpairs := congrArg (List.map fun pair => Token.mk pair.1 pair.2 .start) h
  rwa [List.map_map, List.map_map] at hpairs

/-- Texts whose tokens agree in kinds and lexemes are read alike and run alike. -/
theorem layout_irrelevant (host : Host σ) (polls : Nat) (context : Context σ)
    {source other : String} {tokens others : List Token}
    (hsource : Lexer.tokenize source = .ok tokens) (hother : Lexer.tokenize other = .ok others)
    (h : tokens.map (fun token => (token.kind, token.lexeme)) =
      others.map fun token => (token.kind, token.lexeme)) :
    ReadAlike (Script.parse source) (Script.parse other) ∧
      (Script.run host polls context source).unplaced =
        (Script.run host polls context other).unplaced := by
  have hread : ReadAlike (Script.parse source) (Script.parse other) := by
    unfold Script.parse
    rw [hsource, hother]
    exact Script.ofTokens_readAlike (Token.unplaced_of_pairs h)
  refine ⟨hread, ?_⟩
  cases polls with
  | zero => rfl
  | succ polls => exact hread.runParsed host (polls + 1) context

/-- A string with the other mark and an escape, behind a comment and a line break. -/
theorem layout_irrelevant_string :
    let host : Host Unit := ⟨fun _ => none, fun _ => 0⟩
    let context : Context Unit := ⟨.empty, (), 0⟩
    ReadAlike (Script.parse "PRINT('x')") (Script.parse "PRINT // say\n(\"\\u0078\")") ∧
      (Script.run host 1 context "PRINT('x')").unplaced =
        (Script.run host 1 context "PRINT // say\n(\"\\u0078\")").unplaced := by
  have hsource : Lexer.tokenize "PRINT('x')" = .ok [⟨.keyword .kwPrint, "PRINT", ⟨1, 1⟩⟩,
      ⟨.symbol .leftParen, "(", ⟨1, 6⟩⟩, ⟨.string, "x", ⟨1, 7⟩⟩,
      ⟨.symbol .rightParen, ")", ⟨1, 10⟩⟩, Token.endAt ⟨1, 11⟩] := by
    cbv
  have hother : Lexer.tokenize "PRINT // say\n(\"\\u0078\")" =
      .ok [⟨.keyword .kwPrint, "PRINT", ⟨1, 1⟩⟩, ⟨.symbol .leftParen, "(", ⟨2, 1⟩⟩,
        ⟨.string, "x", ⟨2, 2⟩⟩, ⟨.symbol .rightParen, ")", ⟨2, 10⟩⟩, Token.endAt ⟨2, 11⟩] := by
    cbv
  intro host context
  exact layout_irrelevant host 1 context hsource hother rfl

end ToolScript
