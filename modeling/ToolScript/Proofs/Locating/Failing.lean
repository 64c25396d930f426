import ToolScript.Proofs.Halting
import ToolScript.Proofs.Locating.Blame
import ToolScript.Session

/-!
# Where runs fail

A failure of a run is located at a node of what was run. The failures of built-in functions
have no place of their own, and get that of the call.
-/

namespace ToolScript

variable {σ S α β : Type}

/-- The failure has a place, and that is as in `W`. -/
def Failure.At (W : Position → Prop) (failure : Failure) : Prop :=
  ∃ p, failure.position = some p ∧ W p

theorem Cause.at_located {W : Position → Prop} {pos : Position} (h : W pos) (cause : Cause) :
    (cause.located pos).At W :=
  ⟨pos, rfl, h⟩

/-- All failures of the computation are as in `P`. -/
def FailsAs (P : Failure → Prop) (x : Halting S α) : Prop :=
  ∀ s failure, (x s).1 = .error (.failed failure) → P failure

namespace FailsAs

variable {P : Failure → Prop}

theorem pure (a : α) : FailsAs P (Pure.pure a : Halting S α) :=
  fun _ _ h => by cases h

theorem fails {failure : Failure} (h : P failure) :
    FailsAs P (throw (.failed failure) : Halting S α) :=
  fun _ _ heq => by
    cases heq
    exact h

theorem bind {x : Halting S α} {f : α → Halting S β} (hx : FailsAs P x)
    (hf : ∀ a, FailsAs P (f a)) : FailsAs P (x >>= f) := by
  intro s failure h
  have hfirst := hx s
  rw [Halting.bind_apply] at h
  generalize x s = out at hfirst h
  rcases out with ⟨halt | a, t⟩
  · cases h
    exact hfirst failure rfl
  · exact hf a t failure h

end FailsAs

section Expressions

variable {W : Position → Prop} {pos : Position}

theorem FailsAs.ofExcept (h : W pos) (result : Except Cause α) :
    FailsAs (Failure.At W) (Run.ofExcept pos result : Run σ α) := by
  cases result with
  | ok a => exact .pure a
  | error cause => exact .fails (cause.at_located h)

theorem FailsAs.wait {P : Failure → Prop} (turns : Option Nat) :
    FailsAs P (Run.wait turns : Run σ Unit) := by
  intro world failure h
  cases turns with
  | none => cases h
  | some n =>
      by_cases hle : n ≤ world.patience
      · rw [Run.wait_some hle] at h
        cases h
      · rw [Run.wait_too_long hle] at h
        cases h

theorem FailsAs.invoke (h : W pos) (name : String) (tool : Tool σ) (args : Arguments) :
    FailsAs (Failure.At W) (Run.invoke pos name tool args) := by
  have hrecord : FailsAs (Failure.At W) (Run.record (.called name args) : Run σ Unit) :=
    fun _ _ heq => by cases heq
  have hhand : FailsAs (Failure.At W) (Run.handOver tool args) := fun _ _ heq => by cases heq
  unfold Run.invoke
  split
  · exact .fails (Cause.at_located h _)
  · refine hrecord.bind fun _ => hhand.bind fun reply => (FailsAs.wait reply.turns).bind fun _ => ?_
    rcases reply.result with (message | message) | value
    · exact .fails (Cause.at_located h _)
    · exact .fails (Cause.at_located h _)
    · exact .pure value

/-- A built-in function leaves the place of its failure open. -/
theorem FailsAs.builtin (host : Host σ) (builtin : Builtin) (args : List Value) :
    FailsAs (fun failure => failure.position = none) (builtin.call host args) := by
  have hof (result : Except Cause Value) : FailsAs (fun failure => failure.position = none)
      (Builtin.ofExcept result : Run σ Value) := by
    cases result with
    | ok value => exact .pure value
    | error cause => exact .fails rfl
  unfold Builtin.call
  split
  · exact .bind (fun _ _ heq => by cases heq) fun _ => hof _
  · exact hof _
  · exact .bind (fun _ _ heq => by cases heq) fun _ => .pure _
  · exact hof _

theorem FailsAs.callNamed (h : W pos) (host : Host σ) (name : String) (args : List Value) :
    FailsAs (Failure.At W) (Run.callNamed host pos name args) := by
  unfold Run.callNamed
  split
  · next builtin _ =>
      -- a built-in function has no place to give, so the one of the call is taken
      intro world failure heq
      rw [Run.withPosition_apply] at heq
      have hopen := FailsAs.builtin host builtin args world
      generalize builtin.call host args world = out at heq hopen
      rcases out with ⟨(found | _) | value, after⟩
      · cases heq
        refine ⟨pos, ?_, h⟩
        simp only [Failure.orPosition, hopen found rfl, Option.getD_none]
      · cases heq
      · cases heq
  · exact .fails (Cause.at_located h _)

namespace Expr

variable (host : Host σ) (scope : Scope)

mutual

theorem failsAs_eval (e : Expr) (h : e.Within W) :
    FailsAs (Failure.At W) (e.eval host scope) := by
  cases e with
  | literal pos value => exact .pure value
  | ref pos name =>
      simp only [eval]
      split
      · exact .pure _
      · exact .fails (Cause.at_located h _)
  | binary pos op a b =>
      exact (failsAs_eval a h.2.1).bind fun _ => (failsAs_eval b h.2.2).bind fun _ =>
        .ofExcept h.1 _
  | unary pos op a => exact (failsAs_eval a h.2).bind fun _ => .ofExcept h.1 _
  | apply pos name args =>
      exact (failsAs_evalItems args h.2).bind fun _ => .callNamed h.1 host name _
  | tool pos name args =>
      simp only [eval]
      split
      · exact .fails (Cause.at_located h.1 _)
      · exact (failsAs_evalEntries args h.2).bind fun _ => .invoke h.1 name _ _
  | list pos items => exact (failsAs_evalItems items h.2).bind fun _ => .pure _
  | object pos entries => exact (failsAs_evalEntries entries h.2).bind fun _ => .pure _
  | index pos a b =>
      refine (failsAs_eval a h.2.1).bind fun subject => ?_
      cases subject with
      | list items => exact (failsAs_eval b h.2.2).bind fun _ => .ofExcept h.1 _
      | null | bool | number | string | object => exact .fails (Cause.at_located h.1 _)
  | member pos a property =>
      refine (failsAs_eval a h.2).bind fun subject => ?_
      cases subject with
      | object entries => exact .ofExcept h.1 _
      | null | bool | number | string | list => exact .fails (Cause.at_located h.1 _)

theorem failsAs_evalItems (items : List Expr) (h : WithinItems W items) :
    FailsAs (Failure.At W) (evalItems host scope items) := by
  cases items with
  | nil => exact .pure []
  | cons e rest =>
      exact (failsAs_eval e h.1).bind fun _ => (failsAs_evalItems rest h.2).bind fun _ => .pure _

theorem failsAs_evalEntries (entries : List (String × Expr)) (h : WithinEntries W entries) :
    FailsAs (Failure.At W) (evalEntries host scope entries) := by
  cases entries with
  | nil => exact .pure []
  | cons entry rest =>
      exact (failsAs_eval entry.2 h.1).bind fun _ => (failsAs_evalEntries rest h.2).bind fun _ =>
        .pure _

end

theorem failsAs_evaluate {e : Expr} (h : e.Within W) :
    FailsAs (Failure.At W) (e.evaluate host) :=
  fun machine failure heq => failsAs_eval host machine.scope e h machine.world failure heq

end Expr

end Expressions

section Statements

variable {P : Failure → Prop} {W : Position → Prop}

theorem FailsAs.forEach {body : Exec σ Unit} (h : FailsAs P body) (name : String)
    (values : List Value) : FailsAs P (Exec.forEach name body values) := by
  induction values with
  | nil => exact .pure ()
  | cons value rest ih =>
      have hframe : FailsAs P (Exec.inFrame name value body) :=
        fun machine failure heq => h _ failure heq
      exact hframe.bind fun _ => ih

namespace Stmt

section Branch

variable {pos : Position} {e : Expr} {yes : List Stmt} {no : Option (List Stmt)}

theorem within_branch_iff : (Stmt.branch pos e yes no).Within W ↔
    e.Within W ∧ WithinBlock W yes ∧ WithinBlock W (no.getD []) := by
  cases no with
  | none => exact and_congr_right fun _ => (iff_of_eq (and_true _)).symm
  | some no => rfl

theorem Within.chosen (h : (Stmt.branch pos e yes no).Within W) {value : Value}
    {block : List Stmt} (hchosen : Stmt.chosen yes no value = some block) :
    WithinBlock W block :=
  of_chosen (P := WithinBlock W) hchosen (within_branch_iff.1 h).2.1 (within_branch_iff.1 h).2.2

end Branch

variable (host : Host σ)

mutual

theorem failsAs_exec (stmt : Stmt) (h : stmt.Within W) :
    FailsAs (Failure.At W) (stmt.exec host) := by
  match stmt, h with
  | .bind pos name e, h => exact (Expr.failsAs_evaluate host h).bind fun _ _ _ heq => by cases heq
  | .call pos tool args, h =>
      exact (Expr.failsAs_evaluate host (e := .tool pos tool args) h).bind fun _ => .pure ()
  | .branch pos e yes no, h =>
      rw [exec_branch]
      have he := (within_branch_iff.1 h).1
      refine (Expr.failsAs_evaluate host he).bind fun value => ?_
      cases hchosen : chosen yes no value with
      | none => exact .fails (Cause.at_located he.position _)
      | some block =>
          have hsize := sizeOf_chosen hchosen
          exact failsAs_execBlock block (Within.chosen h hchosen)
  | .each pos name e body, h =>
      refine (Expr.failsAs_evaluate host h.1).bind fun value => ?_
      cases value with
      | list values => exact (failsAs_execBlock body h.2).forEach name values
      | null | bool | number | string | object => exact .fails (Cause.at_located h.1.position _)
  | .expr pos e, h => exact (Expr.failsAs_evaluate host h).bind fun _ => .pure ()
termination_by sizeOf stmt

theorem failsAs_execBlock (stmts : List Stmt) (h : WithinBlock W stmts) :
    FailsAs (Failure.At W) (execBlock host stmts) := by
  match stmts, h with
  | [], _ => exact .pure ()
  | stmt :: rest, h => exact (failsAs_exec stmt h.1).bind fun _ => failsAs_execBlock rest h.2
termination_by sizeOf stmts

end

end Stmt

/-- A bounded run fails as the computation does. -/
theorem FailsAs.within {act : Exec σ α} (h : FailsAs P act) {polls : Nat} {context : Context σ}
    {failure : Failure} (heq : (Exec.within polls context act).outcome = .failed failure) :
    P failure := by
  cases polls with
  | zero => cases heq
  | succ patience =>
      rw [Exec.within_succ] at heq
      have hfailure := h (context.machine patience) failure
      generalize act (context.machine patience) = out at heq hfailure
      rcases out with ⟨(found | _) | a, machine⟩
      · cases heq
        exact hfailure rfl
      · cases heq
      · cases heq

end Statements

/-- The failures that reading, running or evaluating a source text ends with. -/
inductive FailureOf (source : String) : Failure → Prop
  | tokenize {fault : Lexer.Fault} (h : Lexer.tokenize source = .error fault) :
      FailureOf source fault.failure
  | parse {failure : Failure} (h : Script.parse source = .error failure) :
      FailureOf source failure
  | parseExpr {failure : Failure} (h : Expr.parse source = .error failure) :
      FailureOf source failure
  | run {σ : Type} {failure : Failure} (host : Host σ) (polls : Nat) (context : Context σ)
      (h : (Script.run host polls context source).outcome = .failed failure) :
      FailureOf source failure
  | evaluate {σ : Type} {failure : Failure} (host : Host σ) (polls : Nat) (context : Context σ)
      (h : (Expr.runSource host polls context source).outcome = .failed failure) :
      FailureOf source failure

section Texts

open Grammar

variable {source : String} {failure : Failure}

/-- What a reader makes of a text stands in the text, and so does what it blames. -/
theorem Grammar.Keeps.result {Q : α → Prop} {reader : Reader α} {tokens : List Token}
    (h : Keeps (Position.Marks source.toList) reader Q)
    (htokens : Lexer.tokenize source = .ok tokens) :
    (∀ a, reader.result tokens = .ok a → Q a) ∧
      ∀ fault, reader.result tokens = .error fault →
        fault.found.position.Marks source.toList := by
  obtain ⟨hne, hmarks⟩ := Lexer.tokenize_marks htokens
  have hstream := Stream.within_ofTokens hne hmarks
  unfold Reader.result
  cases hread : reader (Stream.ofTokens tokens) with
  | ok result => exact ⟨fun a heq => by cases heq; exact (h.gives hstream hread).1, by simp⟩
  | error fault => exact ⟨by simp, fun _ heq => by cases heq; exact h.blames hstream hread⟩

theorem Script.parse_marks :
    (∀ script, Script.parse source = .ok script →
      Stmt.WithinBlock (Position.Marks source.toList) script.statements) ∧
    ∀ failure, Script.parse source = .error failure →
      failure.At (Position.Marks source.toList) := by
  unfold Script.parse
  cases htokens : Lexer.tokenize source with
  | error fault =>
      refine ⟨by simp, fun failure heq => ?_⟩
      cases heq
      exact ⟨_, rfl, Lexer.tokenize_eq_error htokens⟩
  | ok tokens =>
      obtain ⟨hgives, hblames⟩ := keeps_statements.result htokens
      dsimp only [Script.ofTokens]
      cases hresult : Grammar.statements.result tokens with
      | ok stmts => exact ⟨fun script heq => by cases heq; exact hgives stmts hresult, by simp⟩
      | error fault =>
          refine ⟨by simp, fun failure heq => ?_⟩
          cases heq
          exact ⟨_, rfl, hblames fault hresult⟩

theorem Expr.parse_marks :
    (∀ e, Expr.parse source = .ok e → e.Within (Position.Marks source.toList)) ∧
    ∀ failure, Expr.parse source = .error failure →
      failure.At (Position.Marks source.toList) := by
  unfold Expr.parse
  cases htokens : Lexer.tokenize source with
  | error fault =>
      refine ⟨by simp, fun failure heq => ?_⟩
      cases heq
      exact ⟨_, rfl, Lexer.tokenize_eq_error htokens⟩
  | ok tokens =>
      obtain ⟨hgives, hblames⟩ := keeps_wholeExpression.result htokens
      dsimp only
      cases hresult : wholeExpression.result tokens with
      | ok e => exact ⟨fun _ heq => by cases heq; exact hgives e hresult, by simp⟩
      | error fault =>
          refine ⟨by simp, fun failure heq => ?_⟩
          cases heq
          exact ⟨_, rfl, hblames fault hresult⟩

/-- Every failure of a source text has a place, and that is in the text. -/
theorem FailureOf.marks (h : FailureOf source failure) :
    failure.At (Position.Marks source.toList) := by
  cases h with
  | tokenize h => exact ⟨_, rfl, Lexer.tokenize_eq_error h⟩
  | parse h => exact Script.parse_marks.2 failure h
  | parseExpr h => exact Expr.parse_marks.2 failure h
  | run host polls context h =>
      cases polls with
      | zero => cases h
      | succ polls =>
          simp only [Script.run, Script.runParsed] at h
          split at h
          · next script hscript =>
              exact (Stmt.failsAs_execBlock host _ (Script.parse_marks.1 script hscript)).within h
          · next hparse =>
              cases h
              exact Script.parse_marks.2 failure hparse
  | evaluate host polls context h =>
      simp only [Expr.runSource] at h
      split at h
      · next e he => exact (Expr.failsAs_evaluate host (Expr.parse_marks.1 e he)).within h
      · next hparse =>
          cases h
          exact Expr.parse_marks.2 failure hparse

end Texts

end ToolScript
