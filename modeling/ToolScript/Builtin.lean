import ToolScript.Run
import ToolScript.Template

/-!
# Built-in functions

`NOW()` reads the clock, `FORMAT(template, values)` fills a template, and `PRINT(value)`
prints the text of a value. Each takes a fixed number of arguments. Their failures have
no place of their own; the call gives them one.
-/

namespace ToolScript

/-- The built-in functions. -/
inductive Builtin where
  | now
  | format
  | print
deriving DecidableEq, Repr

namespace Builtin

/-- The name in scripts. -/
def name : Builtin → String
  | .now => "NOW"
  | .format => "FORMAT"
  | .print => "PRINT"

/-- The number of arguments. -/
def arity : Builtin → Nat
  | .now => 0
  | .format => 2
  | .print => 1

/-- All built-in functions. -/
def all : List Builtin :=
  [.now, .format, .print]

/-- The function with the given name. -/
def ofName? (name : String) : Option Builtin :=
  all.find? fun builtin => builtin.name = name

/-- The cause for a wrong number of arguments. -/
def arityCause (builtin : Builtin) (received : Nat) : Cause :=
  .runtime ("function '" ++ builtin.name ++ "' expected " ++ toString builtin.arity ++
    " argument" ++ (if builtin.arity = 1 then "" else "s") ++ " but received " ++
    toString received)

/-- The time as a number; a clock before the epoch is refused. -/
def time (reading : Int) : Except Cause Value :=
  if reading < 0 then .error (.runtime "system clock is set before the Unix epoch")
  else .ok (.number (Float.ofInt reading))

/-- The text that a template value and a value of values give. -/
def formatted (template values : Value) : Except Cause Value :=
  match template, values with
  | .string template, .object values =>
      match Template.fill template values with
      | .ok text => .ok (.string text)
      | .error fault => .error (.runtime fault.message)
  | .string _, values =>
      .error (.type ("FORMAT expects an object of values, found " ++ values.type.name))
  | template, _ =>
      .error (.type ("FORMAT expects a string template, found " ++ template.type.name))

variable {σ : Type}

/-- Ends with a cause that has no place. -/
def ofExcept : Except Cause Value → Run σ Value
  | .ok value => pure value
  | .error cause => Run.fail ⟨cause, none⟩

/-- Calls a built-in function. -/
def call (host : Host σ) (builtin : Builtin) (args : List Value) : Run σ Value := do
  match builtin, args with
  | .now, [] => ofExcept (time (← Run.readClock host))
  | .format, [template, values] => ofExcept (formatted template values)
  | .print, [value] =>
      Run.record (.printed value.text)
      pure .null
  | builtin, args => ofExcept (.error (builtin.arityCause args.length))

end Builtin

end ToolScript
