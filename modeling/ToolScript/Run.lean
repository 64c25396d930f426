import ToolScript.Failure
import ToolScript.Scope
import ToolScript.Tool

/-!
# Runs

A run acts on a world: it prints, calls tools, reads a clock and waits for answers.
Everything it does is recorded in order. It ends with a result, with a failure, or cut
off, when a tool keeps it waiting for more turns than it has patience.
-/

namespace ToolScript

/-- What a run depends on besides the script: the tools, and the clock, whose successive
readings are milliseconds since the epoch. -/
structure Host (σ : Type) where
  tool? : String → Option (Tool σ)
  clock : Nat → Int

/-- Something that a run did. -/
inductive Event where
  | printed (text : String)
  | called (tool : String) (args : Arguments)

/-- The texts that were printed. -/
def Event.printedTexts (events : List Event) : List String :=
  events.filterMap fun
    | .printed text => some text
    | .called _ _ => none

/-- The tools that were called, with their arguments. -/
def Event.toolCalls (events : List Event) : List (String × Arguments) :=
  events.filterMap fun
    | .printed _ => none
    | .called tool args => some (tool, args)

/-- What a run acts on: the memory of the tools, the number of clock readings taken, the
turns that it can still wait, and the record of what it did. -/
structure World (σ : Type) where
  memory : σ
  readings : Nat
  patience : Nat
  events : List Event

/-- Why a run stops before its end. -/
inductive Halt where
  | failed (failure : Failure)
  | cancelled
deriving DecidableEq, Repr

/-- A computation in the world. What it did stays done when it halts. -/
abbrev Run (σ : Type) := ExceptT Halt (StateM (World σ))

namespace Run

variable {σ α : Type}

/-- Ends with a failure. -/
def fail (failure : Failure) : Run σ α :=
  throw (.failed failure)

/-- Goes on with a result, and ends with a cause at the given place. -/
def ofExcept (pos : Position) : Except Cause α → Run σ α
  | .ok a => pure a
  | .error cause => fail (cause.located pos)

/-- Records an event. -/
def record (event : Event) : Run σ Unit :=
  modify fun world => { world with events := world.events ++ [event] }

/-- Takes the next reading of the clock. -/
def readClock (host : Host σ) : Run σ Int := do
  let world ← get
  set { world with readings := world.readings + 1 }
  pure (host.clock world.readings)

/-- Waits for the given number of turns, `none` being for ever. -/
def wait (turns : Option Nat) : Run σ Unit := do
  let world ← get
  match turns with
  | none => throw .cancelled
  | some n =>
      if n ≤ world.patience then set { world with patience := world.patience - n }
      else throw .cancelled

/-- Hands the arguments over to a tool that takes them. -/
def handOver (tool : Tool σ) (args : Arguments) : Run σ Reply := do
  let world ← get
  let (reply, memory) := tool.run args world.memory
  set { world with memory := memory }
  pure reply

/-- Calls a tool: checks the arguments, records the call, and waits for the answer. -/
def invoke (pos : Position) (name : String) (tool : Tool σ) (args : Arguments) :
    Run σ Value := do
  match tool.misfit? args with
  | some misfit => fail ((Cause.toolArgument name misfit.message).located pos)
  | none =>
      record (.called name args)
      let reply ← handOver tool args
      wait reply.turns
      match reply.result with
      | .ok value => pure value
      | .error (.rejected message) => fail ((Cause.toolArgument name message).located pos)
      | .error (.failed message) => fail ((Cause.toolExecution name message).located pos)

end Run

end ToolScript
