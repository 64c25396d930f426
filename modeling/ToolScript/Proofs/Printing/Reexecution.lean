import ToolScript.Proofs.Places
import ToolScript.Proofs.Printing.Acceptance

/-!
# Running a written script

A script that was read back from the text of another one runs like that one, up to the places
of failures, if no number of the first is infinite and none of its statements runs on. In any
case it runs like the joined form of the first with names for its infinite numbers, and there
the two can part: a variable that stands in for a number need not be bound.
-/

namespace ToolScript

open Lexer Grammar

variable {σ : Type}

/-- What was read back runs like the joined form of the script with names for infinite
numbers, hence like the script if no number is infinite and no statement runs on. -/
theorem reexecution (host : Host σ) (polls : Nat) (context : Context σ) (source : String)
    (script again : Script) (hscript : Script.parse source = .ok script)
    (hagain : Script.parse script.text = .ok again) :
    again.unplaced = script.named.joined.unplaced ∧
    (again.execute host polls context).unplaced =
      (script.named.joined.execute host polls context).unplaced ∧
    (script.named = script → script.separate = true →
      (again.execute host polls context).unplaced =
        (script.execute host polls context).unplaced) := by
  have htree : again.unplaced = script.named.joined.unplaced := by
    obtain ⟨haccepts, hrefuses⟩ := Script.parse_text_named (Script.wellFormed_named hscript)
    by_cases hroom : script.textRoom ≤ maxNesting
    · obtain ⟨read, hread, htree⟩ := haccepts hroom
      rw [hagain] at hread
      cases hread
      exact htree
    · obtain ⟨failure, hfailure, -⟩ := hrefuses hroom
      rw [hagain] at hfailure
      cases hfailure
  refine ⟨htree, Script.execute_congr htree host polls context, fun hnamed hseparate => ?_⟩
  apply Script.execute_congr
  rw [htree, hnamed]
  exact script.unplaced_joined_eq_iff.2 hseparate

/-- A script that fails runs like its text, up to the place of the failure. -/
theorem reexecution_failure :
    let host : Host Unit := ⟨fun _ => none, fun _ => 0⟩
    let context : Context Unit := ⟨.empty, (), 0⟩
    let script : Script := ⟨[.bind ⟨1, 1⟩ "a" (.literal ⟨1, 9⟩ .null),
      .expr ⟨1, 14⟩ (.unary ⟨1, 14⟩ .not (.ref ⟨1, 18⟩ "b"))]⟩
    Script.parse "LET a = NULL NOT b" = .ok script ∧
    script.text = "LET a = (NULL)\n(NOT b)\n" ∧
    ∃ again, Script.parse script.text = .ok again ∧
      (again.execute host 1 context).unplaced = (script.execute host 1 context).unplaced ∧
      (script.execute host 1 context).outcome =
        .failed ⟨.undefinedVariable "b", some ⟨1, 18⟩⟩ := by
  have hparse : Script.parse "LET a = NULL NOT b" =
      .ok ⟨[.bind ⟨1, 1⟩ "a" (.literal ⟨1, 9⟩ .null),
        .expr ⟨1, 14⟩ (.unary ⟨1, 14⟩ .not (.ref ⟨1, 18⟩ "b"))]⟩ := by
    cbv
  intro host context script
  obtain ⟨again, hagain, -⟩ := (Script.parse_text_named (Script.wellFormed_named hparse)).1
    (by decide)
  refine ⟨hparse, by decide, again, hagain, ?_, rfl⟩
  exact (reexecution host 1 context _ script again hparse hagain).2.2 rfl (by decide)

/-- The digits of ten to the power of `n`. -/
def powerDigits (n : Nat) : List Char :=
  '1' :: List.replicate n '0'

theorem plain_powerDigits (n : Nat) : Decimal.Plain (powerDigits n) :=
  .whole (by simp [powerDigits]) (by simp [powerDigits])

theorem ofText_powerDigits :
    Number.ofText? (String.ofList (powerDigits 309)) = some Decimal.infinity := by
  have hchars : Decimal.ofChars? (powerDigits 309) = some ⟨10 ^ 309, 0⟩ := by
    decide +kernel
  have hinf : (Decimal.toFloat ⟨10 ^ 309, 0⟩).isInf = true := by
    decide +kernel
  have hinfinity : Decimal.toFloat ⟨10 ^ 309, 0⟩ = Decimal.infinity := by
    apply (Number.readable_toFloat _).resolve_left
    intro hreadable
    rw [hreadable.isInf_eq_false] at hinf
    cases hinf
  rw [Number.ofText_plain (plain_powerDigits 309), hchars, Option.map_some, hinfinity]

/-- A binding of a numeral is read as a binding of its number. -/
theorem Script.parse_binding {numeral : String} {n : Float} (h : Decimal.Plain numeral.toList)
    (hn : Number.ofText? numeral = some n) :
    ∃ pos place, Script.parse ("LET a = " ++ numeral) =
      .ok ⟨[.bind pos "a" (.literal place (.number n))]⟩ := by
  have htext : ("LET " ++ "a" ++ " = " ++ numeral) = "LET a = " ++ numeral := rfl
  have hname : IsIdentifier "a" := ⟨by decide, by decide⟩
  have hcut := cuts_let hname (cuts_number h)
  rw [htext] at hcut
  obtain ⟨tokens, ⟨t, f, u, _, rfl, ht, hf, hspelled, hu, v, rfl, hv, hlexeme⟩, htokens⟩ :=
    hcut.tokenizes apart_nil
  have hvalue : v.literal? = some (.number n) := by
    simp [Token.literal?, hv, hlexeme, hn]
  obtain ⟨d, hd⟩ := (Derivation.operand (.primary (.literal hvalue))).loosen (Nat.zero_le levels)
  refine ⟨t.position, v.position, ?_⟩
  rw [← hspelled]
  refine (@Script.parse_of_outline _ _ ⟨[_]⟩ htokens
    (.cons (.bind ht hf hu d) .none fun _ => .of_ends rfl)).1 ?_
  simp only [Outline.room, hd, Derivation.room]
  decide

/-- A binding of a numeral beyond all doubles succeeds, and its text is a binding of a
variable that does not exist. -/
theorem overflow_not_reexecuted :
    let host : Host Unit := ⟨fun _ => none, fun _ => 0⟩
    let context : Context Unit := ⟨.empty, (), 0⟩
    ∃ script again, Script.parse ("LET a = " ++ String.ofList (powerDigits 309)) = .ok script ∧
      Script.parse script.text = .ok again ∧
      (script.execute host 1 context).outcome = .done () ∧
      (again.execute host 1 context).outcome.unplaced =
        .failed ⟨.undefinedVariable "Infinity", none⟩ := by
  intro host context
  have hplain := plain_powerDigits 309
  rw [← String.toList_ofList (l := powerDigits 309)] at hplain
  obtain ⟨pos, place, hparse⟩ := Script.parse_binding hplain ofText_powerDigits
  have hroom : Script.textRoom ⟨[.bind pos "a" (.literal place (.number Decimal.infinity))]⟩ ≤
      maxNesting := by
    simp only [Script.textRoom, Stmt.blockRoom, Stmt.roomAt, Stmt.needsGuard, guarded_false,
      Expr.roomAs_text, Expr.textRoom]
    decide
  obtain ⟨again, hagain, htree⟩ :=
    (Script.parse_text_named (Script.wellFormed_named hparse)).1 hroom
  refine ⟨_, again, hparse, hagain, rfl, ?_⟩
  have hrun := congrArg Ending.outcome (Script.execute_congr htree host 1 context)
  exact hrun.trans rfl

end ToolScript
