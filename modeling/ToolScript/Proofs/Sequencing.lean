import ToolScript.Proofs.Waiting.Suspension

/-!
# Runs one after the other

A run writes its record and never reads it. So polling a sequence of computations is polling the
first one and then, if it ends with a result, the second one in the context that the first one has
left, with the polls that it has not used up. The record is that of the first run with that of the
second one behind it.
-/

namespace ToolScript

variable {σ S α β : Type}

/-- The computation takes no notice of a change to the state, and leaves the change in place. -/
def Ignores (change : S → S) (x : Halting S α) : Prop :=
  ∀ s, x (change s) = ((x s).1, change (x s).2)

namespace Ignores

variable {change : S → S}

theorem pure (a : α) : Ignores change (Pure.pure a : Halting S α) :=
  fun _ => rfl

theorem halts (halt : Halt) : Ignores change (throw halt : Halting S α) :=
  fun _ => rfl

theorem bind {x : Halting S α} {f : α → Halting S β} (hx : Ignores change x)
    (hf : ∀ a, Ignores change (f a)) : Ignores change (x >>= f) := by
  intro s
  rw [Halting.bind_apply, Halting.bind_apply, hx s]
  rcases x s with ⟨halt | a, t⟩
  · rfl
  · exact hf a t

end Ignores

/-- The world in which other things were done before. -/
def World.withPast (past : List Event) (world : World σ) : World σ :=
  { world with events := past ++ world.events }

/-- The machine in whose world other things were done before. -/
def Machine.withPast (past : List Event) (machine : Machine σ) : Machine σ :=
  { machine with world := machine.world.withPast past }

section Expressions

variable {past : List Event}

theorem Ignores.record (event : Event) :
    Ignores (World.withPast past) (Run.record event : Run σ Unit) := by
  intro world
  change (Except.ok (), { world with events := past ++ world.events ++ [event] }) = _
  rw [List.append_assoc]
  rfl

theorem Ignores.ofExcept (pos : Position) (result : Except Cause α) :
    Ignores (World.withPast past) (Run.ofExcept pos result : Run σ α) := by
  cases result with
  | ok a => exact .pure a
  | error cause => exact .halts _

theorem Ignores.withPosition {run : Run σ α} (h : Ignores (World.withPast past) run)
    (pos : Position) : Ignores (World.withPast past) (Run.withPosition pos run) := by
  intro world
  rw [Run.withPosition_apply, Run.withPosition_apply, h world]
  rcases run world with ⟨(failure | _) | a, after⟩ <;> rfl

theorem Ignores.builtin (host : Host σ) (builtin : Builtin) (args : List Value) :
    Ignores (World.withPast past) (builtin.call host args) := by
  have hof (result : Except Cause Value) :
      Ignores (World.withPast past) (Builtin.ofExcept result : Run σ Value) := by
    cases result with
    | ok value => exact .pure value
    | error cause => exact .halts _
  have hclock : Ignores (World.withPast past) (Run.readClock host) := fun _ => rfl
  unfold Builtin.call
  split
  · exact hclock.bind fun reading => hof _
  · exact hof _
  · exact (Ignores.record _).bind fun _ => .pure _
  · exact hof _

theorem Ignores.callNamed (host : Host σ) (pos : Position) (name : String) (args : List Value) :
    Ignores (World.withPast past) (Run.callNamed host pos name args) := by
  unfold Run.callNamed
  split
  · exact (Ignores.builtin host _ args).withPosition pos
  · exact .halts _

theorem Run.called_withPast (name : String) (tool : Tool σ) (args : Arguments)
    (world : World σ) :
    called name tool args (world.withPast past) = (called name tool args world).withPast past := by
  simp only [called, World.withPast, List.append_assoc]

theorem Ignores.invoke (pos : Position) (name : String) (tool : Tool σ) (args : Arguments) :
    Ignores (World.withPast past) (Run.invoke pos name tool args) := by
  intro world
  cases hmisfit : tool.misfit? args with
  | some misfit => rw [Run.invoke_misfit hmisfit, Run.invoke_misfit hmisfit]
  | none =>
      have hmemory : (world.withPast past).memory = world.memory := rfl
      have hpatience : (world.withPast past).patience = world.patience := rfl
      rw [Run.invoke_apply hmisfit, Run.invoke_apply hmisfit, Run.called_withPast, hmemory]
      cases (tool.run args world.memory).1.turns with
      | none => rfl
      | some n =>
          by_cases hle : n ≤ world.patience
          · simp only [hpatience, if_pos hle]
            rfl
          · simp only [hpatience, if_neg hle]

namespace Expr

variable (host : Host σ) (scope : Scope)

mutual

theorem ignores_eval (e : Expr) : Ignores (World.withPast past) (e.eval host scope) := by
  cases e with
  | literal pos value => exact .pure value
  | ref pos name =>
      simp only [eval]
      split
      · exact .pure _
      · exact .halts _
  | binary pos op a b =>
      exact (ignores_eval a).bind fun _ => (ignores_eval b).bind fun _ => .ofExcept _ _
  | unary pos op a => exact (ignores_eval a).bind fun _ => .ofExcept _ _
  | apply pos name args => exact (ignores_evalItems args).bind fun _ => .callNamed host _ _ _
  | tool pos name args =>
      simp only [eval]
      split
      · exact .halts _
      · exact (ignores_evalEntries args).bind fun _ => .invoke _ _ _ _
  | list pos items => exact (ignores_evalItems items).bind fun _ => .pure _
  | object pos entries => exact (ignores_evalEntries entries).bind fun _ => .pure _
  | index pos a b =>
      refine (ignores_eval a).bind fun subject => ?_
      cases subject with
      | list items => exact (ignores_eval b).bind fun _ => .ofExcept _ _
      | null | bool | number | string | object => exact .halts _
  | member pos a property =>
      refine (ignores_eval a).bind fun subject => ?_
      cases subject with
      | object entries => exact .ofExcept _ _
      | null | bool | number | string | list => exact .halts _

theorem ignores_evalItems (items : List Expr) :
    Ignores (World.withPast past) (evalItems host scope items) := by
  cases items with
  | nil => exact .pure _
  | cons e rest =>
      exact (ignores_eval e).bind fun _ => (ignores_evalItems rest).bind fun _ => .pure _

theorem ignores_evalEntries (entries : List (String × Expr)) :
    Ignores (World.withPast past) (evalEntries host scope entries) := by
  cases entries with
  | nil => exact .pure _
  | cons entry rest =>
      exact (ignores_eval entry.2).bind fun _ => (ignores_evalEntries rest).bind fun _ => .pure _

end

end Expr

end Expressions

section Statements

variable {past : List Event}

theorem Expr.ignores_evaluate (host : Host σ) (e : Expr) :
    Ignores (Machine.withPast past) (e.evaluate host) := by
  intro machine
  have heval : Ignores (World.withPast past) (e.eval host machine.scope) :=
    e.ignores_eval host machine.scope
  simp only [evaluate, Exec.reading, Machine.withPast, heval machine.world]
  rfl

theorem Ignores.forEach {body : Exec σ Unit} (h : Ignores (Machine.withPast past) body)
    (name : String) (values : List Value) :
    Ignores (Machine.withPast past) (Exec.forEach name body values) := by
  have hturn (value : Value) :
      Ignores (Machine.withPast past) (Exec.inFrame name value body) := by
    intro machine
    have hbody := h { machine with scope := machine.scope.push.set name value }
    simp only [Machine.withPast] at hbody
    simp only [Exec.inFrame, Machine.withPast, hbody]
    rfl
  induction values with
  | nil => exact .pure ()
  | cons value rest ih => exact (hturn value).bind fun _ => ih

namespace Stmt

variable (host : Host σ)

mutual

theorem ignores_exec (stmt : Stmt) : Ignores (Machine.withPast past) (stmt.exec host) := by
  cases stmt with
  | bind pos name e => exact (e.ignores_evaluate host).bind fun _ _ => rfl
  | call pos tool args =>
      exact ((Expr.tool pos tool args).ignores_evaluate host).bind fun _ => .pure ()
  | branch pos e yes no =>
      rw [exec_branch]
      refine (e.ignores_evaluate host).bind fun value => ?_
      cases hchosen : chosen yes no value with
      | none => exact .halts _
      | some block =>
          have hsize := sizeOf_chosen hchosen
          exact ignores_execBlock block
  | each pos name e body =>
      refine (e.ignores_evaluate host).bind fun value => ?_
      split
      · exact (ignores_execBlock body).forEach name _
      · exact .halts _
  | expr pos e => exact (e.ignores_evaluate host).bind fun _ => .pure ()
termination_by sizeOf stmt

theorem ignores_execBlock (stmts : List Stmt) :
    Ignores (Machine.withPast past) (execBlock host stmts) := by
  cases stmts with
  | nil => exact .pure ()
  | cons stmt rest => exact (ignores_exec stmt).bind fun _ => ignores_execBlock rest
termination_by sizeOf stmts

end

end Stmt

end Statements

/-- Goes on behind a run that has ended with a result, in the context that it has left. -/
def Ending.andThen (first : Ending σ α) (next : α → Context σ → Ending σ β) : Ending σ β :=
  match first.outcome with
  | .done a =>
      let second := next a first.context
      { second with events := first.events ++ second.events }
  | .failed failure => ⟨.failed failure, first.context, first.events⟩
  | .cancelled => ⟨.cancelled, first.context, first.events⟩

theorem Ending.andThen_of_done {first : Ending σ α} {a : α} (h : first.outcome = .done a)
    (next : α → Context σ → Ending σ β) :
    first.andThen next =
      { next a first.context with events := first.events ++ (next a first.context).events } := by
  simp only [andThen, h]

theorem Ending.andThen_of_failed {first : Ending σ α} {failure : Failure}
    (h : first.outcome = .failed failure) (next : α → Context σ → Ending σ β) :
    first.andThen next = ⟨.failed failure, first.context, first.events⟩ := by
  simp only [andThen, h]

theorem Ending.andThen_of_cancelled {first : Ending σ α} (h : first.outcome = .cancelled)
    (next : α → Context σ → Ending σ β) :
    first.andThen next = ⟨.cancelled, first.context, first.events⟩ := by
  simp only [andThen, h]

theorem Ending.andThen_congr {first : Ending σ α} {next other : α → Context σ → Ending σ β}
    (h : ∀ a, next a first.context = other a first.context) :
    first.andThen next = first.andThen other := by
  cases houtcome : first.outcome with
  | done a => rw [andThen_of_done houtcome, andThen_of_done houtcome, h a]
  | failed failure => rw [andThen_of_failed houtcome, andThen_of_failed houtcome]
  | cancelled => rw [andThen_of_cancelled houtcome, andThen_of_cancelled houtcome]

/-- The polls that a computation leaves of those that it may use. -/
def Exec.pollsLeft (polls : Nat) (context : Context σ) (act : Exec σ α) : Nat :=
  match polls with
  | 0 => 0
  | patience + 1 => (act (context.machine patience)).2.world.patience + 1

/-- The polls that the run of a script leaves of those that it may use. -/
def Script.pollsLeft (host : Host σ) (polls : Nat) (context : Context σ) (script : Script) : Nat :=
  Exec.pollsLeft polls context (Stmt.execBlock host script.statements)

/-- The polls that the run of an expression leaves of those that it may use. -/
def Expr.pollsLeft (host : Host σ) (polls : Nat) (context : Context σ) (e : Expr) : Nat :=
  Exec.pollsLeft polls context (e.evaluate host)

namespace Exec

/-- A bounded run of a sequence is that of its first part and, behind it, that of the second part
with the polls that are left. -/
theorem within_bind {x : Exec σ α} {f : α → Exec σ β}
    (hf : ∀ past a, Ignores (Machine.withPast past) (f a)) (polls : Nat) (context : Context σ) :
    within polls context (x >>= f) = (within polls context x).andThen fun a after =>
      within (pollsLeft polls context x) after (f a) := by
  cases polls with
  | zero => rfl
  | succ patience =>
      rw [within_succ, within_succ, Halting.bind_apply]
      simp only [pollsLeft]
      generalize x (context.machine patience) = out
      obtain ⟨(failure | _) | a, machine⟩ := out
      · rfl
      · rfl
      · have hnext := hf machine.world.events a
          (Context.machine ⟨machine.scope, machine.world.memory, machine.world.readings⟩
            machine.world.patience)
        have hstart : Machine.withPast machine.world.events (Context.machine
            ⟨machine.scope, machine.world.memory, machine.world.readings⟩
            machine.world.patience) = machine := by
          simp only [Machine.withPast, World.withPast, Context.machine, List.append_nil]
        rw [hstart] at hnext
        simp only [hnext]
        rfl

/-- What a run that is not cut off leaves of its polls is what it was not suspended for. -/
theorem saved_add_pollsLeft {act : Exec σ α} {metered : Exec (σ × ℕ∞) α}
    (h : ∀ patience, Exec.Outlasts (World.Spends patience) (World.Overspends patience) act metered)
    {polls : Nat} {context : Context σ} (hne : (within polls context act).outcome ≠ .cancelled) :
    (within 1 context.metered metered).context.memory.2 + pollsLeft polls context act = polls := by
  cases polls with
  | zero => exact absurd rfl hne
  | succ patience =>
      have hstart : Machine.InStep (World.Spends patience) (context.machine patience)
          (context.metered.machine 0) := ⟨rfl, rfl, rfl, zero_add _⟩
      rcases (h patience).goesOn _ _ hstart with ⟨-, -, -, hspends⟩ | ⟨hcut, -⟩
      · calc (metered (context.metered.machine 0)).2.world.memory.2 +
              (((act (context.machine patience)).2.world.patience + 1 : Nat) : ℕ∞)
            = (metered (context.metered.machine 0)).2.world.memory.2 +
                (act (context.machine patience)).2.world.patience + 1 := by
              rw [Nat.cast_succ, add_assoc]
          _ = ((patience + 1 : Nat) : ℕ∞) := by rw [hspends.saved, Nat.cast_succ]
      · exact absurd ((outcome_eq_cancelled _).mpr hcut) hne

end Exec

theorem Stmt.execBlock_single (host : Host σ) (stmt : Stmt) :
    execBlock host [stmt] = stmt.exec host :=
  bind_pure _

theorem Stmt.execBlock_append (host : Host σ) (front back : List Stmt) :
    execBlock host (front ++ back) = (do execBlock host front; execBlock host back) := by
  induction front with
  | nil => rfl
  | cons stmt rest ih => simp only [List.cons_append, execBlock, ih, bind_assoc]

namespace Script

variable (host : Host σ) (polls : Nat) (context : Context σ)

theorem turns_add_pollsLeft {script : Script}
    (hne : (script.execute host polls context).outcome ≠ .cancelled) :
    script.turns host context + script.pollsLeft host polls context = polls :=
  Exec.saved_add_pollsLeft
    (fun patience => (host.outlasted_metered patience).execBlock script.statements) hne

/-- Executing statements and others behind them is executing the ones and then the others. -/
theorem execute_append (front back : List Stmt) :
    execute host polls context ⟨front ++ back⟩ =
      (execute host polls context ⟨front⟩).andThen fun _ after =>
        execute host (pollsLeft host polls context ⟨front⟩) after ⟨back⟩ := by
  simp only [execute, Stmt.execBlock_append]
  exact Exec.within_bind (fun _ _ => Stmt.ignores_execBlock host back) polls context

theorem execute_single (stmt : Stmt) :
    execute host polls context ⟨[stmt]⟩ = Exec.within polls context (stmt.exec host) := by
  simp only [execute, Stmt.execBlock_single]

end Script

end ToolScript
