import ToolScript.Run.Eval

/-!
# Executing statements

A binding goes into the innermost frame. Each turn of a loop has a frame of its own, which
holds the loop variable at first and is taken off however the turn ends. The scope that a
halted script leaves behind keeps what was bound before.
-/

namespace ToolScript

/-- A scope and the world around it. -/
structure Machine (σ : Type) where
  scope : Scope
  world : World σ

/-- A computation that can change the scope. Changes stay when it halts. -/
abbrev Exec (σ : Type) := ExceptT Halt (StateM (Machine σ))

namespace Exec

variable {σ α : Type}

/-- Runs a computation that only reads the scope. -/
def reading (run : Scope → Run σ α) : Exec σ α := fun machine =>
  let (result, world) := run machine.scope machine.world
  (result, { machine with world := world })

/-- Changes the scope. -/
def modifyScope (f : Scope → Scope) : Exec σ Unit :=
  modify fun machine => { machine with scope := f machine.scope }

/-- Does something inside a new frame that binds one name, and takes the frame off in the
end. -/
def inFrame (name : String) (value : Value) (body : Exec σ Unit) : Exec σ Unit := fun machine =>
  let (result, after) := body { machine with scope := machine.scope.push.set name value }
  (result, { after with scope := after.scope.pop })

/-- Does something for each value, each time in a frame that binds the name to it. -/
def forEach (name : String) (body : Exec σ Unit) : List Value → Exec σ Unit
  | [] => pure ()
  | value :: rest => do
      inFrame name value body
      forEach name body rest

end Exec

/-- Evaluates an expression in the scope of the machine. -/
def Expr.evaluate {σ : Type} (host : Host σ) (e : Expr) : Exec σ Value :=
  Exec.reading fun scope => e.eval host scope

namespace Stmt

variable {σ : Type}

mutual

/-- Executes a statement. -/
def exec (host : Host σ) : Stmt → Exec σ Unit
  | .bind _ name value => do
      let result ← value.evaluate host
      Exec.modifyScope fun scope => scope.set name result
  | .call pos tool args => do
      let _ ← (Expr.tool pos tool args).evaluate host
  | .branch _ condition yes none => do
      match ← condition.evaluate host with
      | .bool true => execBlock host yes
      | .bool false => pure ()
      | other => throw (.failed ((Cause.condition other.type).located condition.position))
  | .branch _ condition yes (some no) => do
      match ← condition.evaluate host with
      | .bool true => execBlock host yes
      | .bool false => execBlock host no
      | other => throw (.failed ((Cause.condition other.type).located condition.position))
  | .each _ name items body => do
      match ← items.evaluate host with
      | .list values => Exec.forEach name (execBlock host body) values
      | other => throw (.failed ((Cause.iterable other.type).located items.position))
  | .expr _ e => do
      let _ ← e.evaluate host
termination_by structural stmt => stmt

/-- Executes statements one after the other. -/
def execBlock (host : Host σ) : List Stmt → Exec σ Unit
  | [] => pure ()
  | stmt :: rest => do
      stmt.exec host
      execBlock host rest
termination_by structural stmts => stmts

end

variable {yes : List Stmt} {no : Option (List Stmt)} {value : Value}

/-- The block that a branch goes on with, if the value of its condition is a boolean. -/
def chosen (yes : List Stmt) (no : Option (List Stmt)) : Value → Option (List Stmt)
  | .bool true => some yes
  | .bool false => some (no.getD [])
  | _ => none

/-- A branch evaluates its condition and then executes the chosen block. -/
theorem exec_branch (host : Host σ) (pos : Position) (condition : Expr) (yes : List Stmt)
    (no : Option (List Stmt)) :
    (Stmt.branch pos condition yes no).exec host = condition.evaluate host >>= fun value =>
      match chosen yes no value with
      | some block => execBlock host block
      | none => throw (.failed ((Cause.condition value.type).located condition.position)) := by
  cases no with
  | none =>
      refine bind_congr fun value => ?_
      rcases value with _ | (_ | _) | _ | _ | _ | _ <;> rfl
  | some no =>
      refine bind_congr fun value => ?_
      rcases value with _ | (_ | _) | _ | _ | _ | _ <;> rfl

/-- What holds of the first block, and of the second one or the empty block in its place, holds
of the chosen one. -/
theorem of_chosen {P : List Stmt → Prop} {block : List Stmt}
    (h : chosen yes no value = some block) (hyes : P yes) (hno : P (no.getD [])) : P block := by
  unfold chosen at h
  split at h
  · cases h
    exact hyes
  · cases h
    exact hno
  · cases h

/-- Inductions on statements pass from a branch to the chosen block. -/
theorem sizeOf_chosen {block : List Stmt} (h : chosen yes no value = some block) :
    sizeOf block ≤ sizeOf yes + sizeOf no := by
  refine of_chosen (P := fun block => sizeOf block ≤ sizeOf yes + sizeOf no) h
    (Nat.le_add_right _ _) ?_
  cases no with
  | none => simp
  | some block =>
      simp only [Option.getD_some, Option.some.sizeOf_spec]
      omega

end Stmt

/-- What persists between runs: the scope, the memory of the tools, and the number of
clock readings taken. -/
structure Context (σ : Type) where
  scope : Scope
  memory : σ
  readings : Nat

/-- How a run ended. -/
inductive Outcome (α : Type) where
  | done (result : α)
  | failed (failure : Failure)
  | cancelled

/-- How a run ended, what it left behind, and what it did. -/
structure Ending (σ α : Type) where
  outcome : Outcome α
  context : Context σ
  events : List Event

namespace Exec

variable {σ α : Type}

/-- The outcome that a result or a halt amounts to. -/
def outcome : Except Halt α → Outcome α
  | .ok a => .done a
  | .error (.failed failure) => .failed failure
  | .error .cancelled => .cancelled

/-- Runs for at most the given number of polls. Each turn that a tool keeps the run
waiting ends a poll, so there is patience for one turn less; without any poll nothing
happens. -/
def within (polls : Nat) (context : Context σ) (act : Exec σ α) : Ending σ α :=
  match polls with
  | 0 => ⟨.cancelled, context, []⟩
  | patience + 1 =>
      let (result, machine) :=
        act ⟨context.scope, ⟨context.memory, context.readings, patience, []⟩⟩
      ⟨outcome result, ⟨machine.scope, machine.world.memory, machine.world.readings⟩,
        machine.world.events⟩

end Exec

/-- Executes a script. -/
def Script.execute {σ : Type} (host : Host σ) (polls : Nat) (context : Context σ)
    (script : Script) : Ending σ Unit :=
  Exec.within polls context (Stmt.execBlock host script.statements)

/-- Evaluates an expression. -/
def Expr.run {σ : Type} (host : Host σ) (polls : Nat) (context : Context σ) (e : Expr) :
    Ending σ Value :=
  Exec.within polls context (e.evaluate host)

end ToolScript
