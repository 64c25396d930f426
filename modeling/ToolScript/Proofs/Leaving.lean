import ToolScript.Proofs.Order
import ToolScript.Proofs.Sequencing

/-!
# What a failed run leaves behind

A run fails with its first statement that fails, and has done what the statements before it did
and what that statement did until then. The failing statement leaves the scope as it found it,
unless it is a branch: the block that it chooses runs in the same frame, so what was bound there
before the failure stays.
-/

namespace ToolScript

variable {σ : Type}

namespace Stmt

/-- A statement that halts leaves the scope as it was, unless it is a branch. -/
theorem scope_of_halted {host : Host σ} {stmt : Stmt} {machine : Machine σ} {halt : Halt}
    (hbranch : ∀ pos condition yes no, stmt ≠ .branch pos condition yes no)
    (h : (stmt.exec host machine).1 = .error halt) :
    (stmt.exec host machine).2.scope = machine.scope := by
  have heval (e : Expr) : Exec.Respects Eq (do let _ ← e.evaluate host) :=
    (e.respects_evaluate host).bind (fun _ _ _ => Eq.trans) fun _ =>
      Exec.respects_pure (fun _ => rfl) ()
  cases stmt with
  | bind pos name value =>
      -- the binding takes place only behind a value, and then the statement does not halt
      have hscope := value.respects_evaluate host machine
      simp only [exec, Halting.bind_apply] at h ⊢
      generalize value.evaluate host machine = out at h hscope ⊢
      rcases out with ⟨halt | result, after⟩
      · exact hscope.symm
      · cases h
  | call pos tool args => exact (heval (.tool pos tool args) machine).symm
  | branch pos condition yes no => exact absurd rfl (hbranch pos condition yes no)
  | each pos name items body =>
      exact (respects_each (respects_execBlock host body) pos name items machine).symm
  | expr pos e => exact (heval e machine).symm

end Stmt

namespace Script

variable {host : Host σ} {polls : Nat} {context : Context σ} {failure : Failure}

theorem scope_of_failed {stmt : Stmt}
    (hbranch : ∀ pos condition yes no, stmt ≠ .branch pos condition yes no)
    (h : (execute host polls context ⟨[stmt]⟩).outcome = .failed failure) :
    (execute host polls context ⟨[stmt]⟩).context.scope = context.scope := by
  rw [execute_single] at h ⊢
  cases polls with
  | zero => rfl
  | succ patience =>
      exact Stmt.scope_of_halted hbranch (Exec.outcome_eq_failed h)

/-- A failing block has a first statement that fails, and what comes behind it makes no
difference. -/
theorem exists_failing {stmts : List Stmt}
    (h : (execute host polls context ⟨stmts⟩).outcome = .failed failure) :
    ∃ before bad after, stmts = before ++ bad :: after ∧
      (execute host polls context ⟨before⟩).outcome = .done () ∧
      execute host polls context ⟨stmts⟩ = execute host polls context ⟨before ++ [bad]⟩ := by
  induction stmts using List.reverseRecOn with
  | nil => cases polls <;> cases h
  | append_singleton init last ih =>
      cases hinit : (execute host polls context ⟨init⟩).outcome with
      | done result => exact ⟨init, last, [], rfl, hinit, rfl⟩
      | failed other =>
          have hwhole : execute host polls context ⟨init ++ [last]⟩ =
              execute host polls context ⟨init⟩ := by
            rw [execute_append, Ending.andThen_of_failed hinit, ← hinit]
          rw [hwhole] at h ⊢
          obtain ⟨before, bad, after, rfl, hbefore, heq⟩ := ih h
          exact ⟨before, bad, after ++ [last], by simp, hbefore, heq⟩
      | cancelled =>
          rw [execute_append, Ending.andThen_of_cancelled hinit] at h
          cases h

end Script

/-- The scope that a failing branch leaves behind if it starts in the given context. Without a
chosen block it is the one it started with. The chosen block starts in the same scope, and what the
branch leaves is what the block leaves, executed up to its first statement that fails. -/
inductive Stmt.BranchLeaves (host : Host σ) (polls : Nat) (context : Context σ)
    (condition : Expr) (yes : List Stmt) (no : Option (List Stmt)) (failure : Failure)
    (scope : Scope) : Prop
  | untested (hcondition : (condition.run host polls context).outcome = .failed failure)
      (hscope : scope = context.scope)
  | unchosen {value : Value}
      (hcondition : (condition.run host polls context).outcome = .done value)
      (hchosen : chosen yes no value = none)
      (hfailure : failure = (Cause.condition value.type).located condition.position)
      (hscope : scope = context.scope)
  | chosen {value : Value} {before : List Stmt} {bad : Stmt} {after : List Stmt}
      {start : Context σ} {left : Nat}
      (hcondition : (condition.run host polls context).outcome = .done value)
      (hchosen : chosen yes no value = some (before ++ bad :: after))
      (hstart : (condition.run host polls context).context = start)
      (hleft : condition.pollsLeft host polls context = left)
      (hframe : start.scope = context.scope)
      (hbefore : (Script.execute host left start ⟨before⟩).outcome = .done ())
      (hbad : (Script.execute host left start ⟨before ++ [bad]⟩).outcome = .failed failure)
      (hscope : scope = (Script.execute host left start ⟨before ++ [bad]⟩).context.scope)

/-- The run of a branch is that of its condition and, behind it, that of the chosen block. -/
theorem Script.execute_branch (host : Host σ) (polls : Nat) (context : Context σ)
    (pos : Position) (condition : Expr) (yes : List Stmt) (no : Option (List Stmt)) :
    execute host polls context ⟨[.branch pos condition yes no]⟩ =
      (condition.run host polls context).andThen fun value after =>
        match Stmt.chosen yes no value with
        | some block => execute host (condition.pollsLeft host polls context) after ⟨block⟩
        | none =>
            Exec.within (condition.pollsLeft host polls context) after
              (throw (.failed ((Cause.condition value.type).located condition.position))) := by
  rw [execute_single, Stmt.exec_branch, Exec.within_bind]
  · refine congrArg _ (funext fun value => funext fun after => ?_)
    cases Stmt.chosen yes no value <;> rfl
  · intro past value
    split
    · exact Stmt.ignores_execBlock host _
    · exact .halts _

theorem Script.branchLeaves {host : Host σ} {polls : Nat} {context : Context σ} {pos : Position}
    {condition : Expr} {yes : List Stmt} {no : Option (List Stmt)} {failure : Failure}
    (h : (execute host polls context ⟨[.branch pos condition yes no]⟩).outcome = .failed failure) :
    Stmt.BranchLeaves host polls context condition yes no failure
      (execute host polls context ⟨[.branch pos condition yes no]⟩).context.scope := by
  have hframe : (condition.run host polls context).context.scope = context.scope :=
    ((condition.respects_evaluate host).within (fun _ => rfl) polls context).symm
  rw [execute_branch] at h ⊢
  cases hcondition : (condition.run host polls context).outcome with
  | failed other =>
      rw [Ending.andThen_of_failed hcondition] at h ⊢
      cases h
      exact .untested hcondition hframe
  | cancelled =>
      rw [Ending.andThen_of_cancelled hcondition] at h
      cases h
  | done value =>
      rw [Ending.andThen_of_done hcondition] at h ⊢
      cases hchosen : Stmt.chosen yes no value with
      | none =>
          simp only [hchosen] at h ⊢
          cases hleft : condition.pollsLeft host polls context with
          | zero =>
              rw [hleft] at h
              cases h
          | succ patience =>
              rw [hleft] at h
              cases h
              exact .unchosen hcondition hchosen rfl hframe
      | some block =>
          simp only [hchosen] at h ⊢
          obtain ⟨before, bad, after, rfl, hbefore, heq⟩ := exists_failing h
          rw [heq] at h ⊢
          exact .chosen hcondition hchosen rfl rfl hframe hbefore h rfl

/-- Let the statements in front end and the next one fail, with the polls that are left to it.
Then the whole run fails with it, whatever comes behind, and has done what the statements in
front and that statement did. The scope left behind is the one in front of that statement, unless
it is a branch: then it is the one that its chosen block leaves, executed up to the first
statement that fails. -/
theorem failed_run_leaves (host : Host σ) (polls : Nat) (context : Context σ)
    (front : List Stmt) (stmt : Stmt) (back : List Stmt) (failure : Failure) :
    let first := Script.execute host polls context ⟨front⟩
    let left := Script.pollsLeft host polls context ⟨front⟩
    let second := Script.execute host left first.context ⟨[stmt]⟩
    let whole := Script.execute host polls context ⟨front ++ stmt :: back⟩
    first.outcome = .done () → second.outcome = .failed failure →
      Script.turns host context ⟨front⟩ + left = polls ∧
      whole = ⟨.failed failure, second.context, first.events ++ second.events⟩ ∧
      Event.printedTexts whole.events =
        Event.printedTexts first.events ++ Event.printedTexts second.events ∧
      Event.toolCalls whole.events =
        Event.toolCalls first.events ++ Event.toolCalls second.events ∧
      ((∀ pos condition yes no, stmt ≠ .branch pos condition yes no) →
        whole.context.scope = first.context.scope) ∧
      ∀ pos condition yes no, stmt = .branch pos condition yes no →
        Stmt.BranchLeaves host left first.context condition yes no failure
          whole.context.scope := by
  intro first left second whole hfirst hsecond
  have hturns : Script.turns host context ⟨front⟩ + left = polls := by
    apply Script.turns_add_pollsLeft
    rw [show (Script.execute host polls context ⟨front⟩).outcome = .done () from hfirst]
    rintro ⟨⟩
  have hwhole : whole = ⟨.failed failure, second.context, first.events ++ second.events⟩ := by
    calc whole = first.andThen fun _ after => Script.execute host left after ⟨[stmt] ++ back⟩ :=
          Script.execute_append host polls context front (stmt :: back)
      _ = first.andThen fun _ _ => ⟨.failed failure, second.context, second.events⟩ := by
          rw [Ending.andThen_of_done hfirst, Ending.andThen_of_done hfirst, Script.execute_append,
            Ending.andThen_of_failed hsecond]
      _ = _ := Ending.andThen_of_done hfirst _
  refine ⟨hturns, hwhole, ?_, ?_, ?_, ?_⟩
  · rw [hwhole]
    exact List.filterMap_append
  · rw [hwhole]
    exact List.filterMap_append
  · intro hbranch
    rw [hwhole]
    exact Script.scope_of_failed hbranch hsecond
  · rintro pos condition yes no rfl
    rw [hwhole]
    exact Script.branchLeaves hsecond

/-- A loop inside a branch fails in its second turn. What the branch has bound in front of the loop
stays, and what the first turn has bound does not. -/
theorem failed_run_leaves_loop :
    let host : Host Unit := ⟨fun _ => none, fun _ => 0⟩
    let context : Context Unit := ⟨.empty, (), 0⟩
    let flip : Expr := .unary .start .not (.ref .start "x")
    let loop : Stmt := .each .start "x" (.literal .start (.list [.bool false, .null]))
      [.bind .start "a" (.ref .start "x"), .expr .start (.apply .start "PRINT" [flip])]
    let branch : Stmt := .branch .start (.literal .start (.bool true))
      [.bind .start "b" (.literal .start .null), loop] none
    let front : List Stmt := [.bind .start "a" (.literal .start .null)]
    let back : List Stmt := [.expr .start (.apply .start "PRINT" [.ref .start "a"])]
    let whole := Script.execute host 1 context ⟨front ++ branch :: back⟩
    whole.outcome = .failed ((UnaryOp.not.operandCause .null).located .start) ∧
      Event.printedTexts whole.events = ["true"] ∧
      whole.context.scope = .ofFrame [("a", .null), ("b", .null)] ∧
      Stmt.BranchLeaves host 1 ⟨.ofFrame [("a", .null)], (), 0⟩ (.literal .start (.bool true))
        [.bind .start "b" (.literal .start .null), loop] none
        ((UnaryOp.not.operandCause .null).located .start) whole.context.scope := by
  intro host context flip loop branch front back whole
  obtain ⟨-, hwhole, hprinted, -, -, hleaves⟩ :=
    failed_run_leaves host 1 context front branch back _ rfl rfl
  refine ⟨congrArg Ending.outcome hwhole, hprinted, rfl, hleaves _ _ _ _ rfl⟩

end ToolScript
