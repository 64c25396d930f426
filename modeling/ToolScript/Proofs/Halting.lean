import ToolScript.Run.Exec

/-!
# Computations that halt

Runs and executions are computations on a state that end with a result or halt, and what they
did stays done. These equations say where a sequence goes on, so that no other proof has to
look at how such computations are put together.
-/

namespace ToolScript

/-- A computation on states `S` that ends with a result or halts. -/
abbrev Halting (S α : Type) := ExceptT Halt (StateM S) α

namespace Halting

variable {S α β : Type}

theorem bind_apply (x : Halting S α) (f : α → Halting S β) (s : S) :
    (x >>= f) s =
      match x s with
      | (.ok a, t) => f a t
      | (.error halt, t) => (.error halt, t) := by
  change ExceptT.bindCont f (x s).1 (x s).2 = _
  rcases x s with ⟨_ | _, t⟩ <;> rfl

theorem bind_ok {x : Halting S α} {s t : S} {a : α} (h : x s = (.ok a, t))
    (f : α → Halting S β) : (x >>= f) s = f a t := by
  rw [bind_apply, h]

theorem bind_error {x : Halting S α} {s t : S} {halt : Halt} (h : x s = (.error halt, t))
    (f : α → Halting S β) : (x >>= f) s = (.error halt, t) := by
  rw [bind_apply, h]

end Halting

theorem Run.withPosition_apply {σ α : Type} (pos : Position) (run : Run σ α) (world : World σ) :
    Run.withPosition pos run world =
      match run world with
      | (.error (.failed failure), after) => (.error (.failed (failure.orPosition pos)), after)
      | other => other := by
  simp only [Run.withPosition, tryCatchThe, MonadExceptOf.tryCatch, ExceptT.tryCatch, ExceptT.mk,
    bind, StateT.bind]
  rcases run world with ⟨(_ | _) | _, after⟩ <;> rfl

/-- The machine in which a run of the given patience starts. -/
def Context.machine {σ : Type} (context : Context σ) (patience : Nat) : Machine σ :=
  ⟨context.scope, ⟨context.memory, context.readings, patience, []⟩⟩

theorem Exec.within_succ {σ α : Type} (patience : Nat) (context : Context σ) (act : Exec σ α) :
    within (patience + 1) context act =
      ⟨outcome (act (context.machine patience)).1,
        ⟨(act (context.machine patience)).2.scope,
          (act (context.machine patience)).2.world.memory,
          (act (context.machine patience)).2.world.readings⟩,
        (act (context.machine patience)).2.world.events⟩ := rfl

namespace Run

variable {σ : Type}

/-- What the answer of a tool amounts to for the script. -/
def answer (pos : Position) (name : String) : Except Refusal Value → Except Halt Value
  | .ok value => .ok value
  | .error (.rejected message) =>
      .error (.failed ((Cause.toolArgument name message).located pos))
  | .error (.failed message) =>
      .error (.failed ((Cause.toolExecution name message).located pos))

/-- The world in which a tool has been called and has not answered yet. -/
def called (name : String) (tool : Tool σ) (args : Arguments) (world : World σ) : World σ :=
  { world with
    memory := (tool.run args world.memory).2
    events := world.events ++ [.called name args] }

theorem invoke_misfit {tool : Tool σ} {args : Arguments} {misfit : Misfit}
    (h : tool.misfit? args = some misfit) (pos : Position) (name : String) (world : World σ) :
    invoke pos name tool args world =
      (.error (.failed ((Cause.toolArgument name misfit.message).located pos)), world) := by
  simp only [invoke, h]
  rfl

theorem wait_forever (world : World σ) : wait none world = (.error .cancelled, world) := rfl

theorem wait_some {n : Nat} {world : World σ} (h : n ≤ world.patience) :
    wait (some n) world = (.ok (), { world with patience := world.patience - n }) := by
  have hget : (get : Run σ (World σ)) world = (.ok world, world) := rfl
  unfold wait
  rw [Halting.bind_ok hget]
  simp only [h, if_true]
  rfl

theorem wait_too_long {n : Nat} {world : World σ} (h : ¬n ≤ world.patience) :
    wait (some n) world = (.error .cancelled, world) := by
  have hget : (get : Run σ (World σ)) world = (.ok world, world) := rfl
  unfold wait
  rw [Halting.bind_ok hget]
  simp only [h, if_false]
  rfl

/-- A call that is made is recorded. Then the run waits for the answer, and is cut off if that
takes more turns than there is patience. -/
theorem invoke_apply {tool : Tool σ} {args : Arguments} (h : tool.misfit? args = none)
    (pos : Position) (name : String) (world : World σ) :
    invoke pos name tool args world =
      match (tool.run args world.memory).1.turns with
      | none => (.error .cancelled, called name tool args world)
      | some n =>
          if n ≤ world.patience then
            (answer pos name (tool.run args world.memory).1.result,
              { called name tool args world with patience := world.patience - n })
          else (.error .cancelled, called name tool args world) := by
  have hrecord : record (.called name args) world =
      (.ok (), { world with events := world.events ++ [.called name args] }) := rfl
  have hhand : handOver tool args { world with events := world.events ++ [.called name args] } =
      (.ok (tool.run args world.memory).1, called name tool args world) := rfl
  have hanswer (result : Except Refusal Value) (after : World σ) :
      (match result with
        | .ok value => pure value
        | .error (.rejected message) => fail ((Cause.toolArgument name message).located pos)
        | .error (.failed message) => fail ((Cause.toolExecution name message).located pos) :
        Run σ Value) after = (answer pos name result, after) := by
    rcases result with (_ | _) | _ <;> rfl
  unfold invoke
  simp only [h]
  rw [Halting.bind_ok hrecord, Halting.bind_ok hhand]
  cases hturns : (tool.run args world.memory).1.turns with
  | none => rw [Halting.bind_error (wait_forever _)]
  | some n =>
      by_cases hle : n ≤ (called name tool args world).patience
      · rw [Halting.bind_ok (wait_some hle)]
        exact (hanswer _ _).trans (if_pos hle).symm
      · rw [Halting.bind_error (wait_too_long hle)]
        exact (if_neg hle).symm

end Run

end ToolScript
