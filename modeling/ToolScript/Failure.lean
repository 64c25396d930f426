import ToolScript.Position
import ToolScript.Value

/-!
# Failures

A failure is a cause together with the place in the source that it concerns. The
wording of every message stands here; a message with a place ends by naming it.
-/

namespace ToolScript

/-- Why reading or running a script failed. -/
inductive Cause where
  | lexical (message : String)
  | grammar (message found : String)
  | undefinedVariable (name : String)
  | type (message : String)
  | memberAccess (message : String)
  | indexOutOfBounds (index : Int) (length : Nat)
  | divisionByZero
  | condition (found : ValueType)
  | iterable (found : ValueType)
  | toolNotFound (tool : String)
  | toolArgument (tool message : String)
  | toolExecution (tool message : String)
  | runtime (message : String)
deriving DecidableEq, Repr

namespace Cause

/-- The name of the kind of a cause. -/
def kind : Cause → String
  | .lexical _ => "LexerError"
  | .grammar _ _ => "ParserError"
  | .undefinedVariable _ => "UndefinedVariableError"
  | .type _ => "TypeError"
  | .memberAccess _ => "MemberAccessError"
  | .indexOutOfBounds _ _ => "IndexOutOfBoundsError"
  | .divisionByZero => "DivisionByZeroError"
  | .condition _ => "InvalidConditionError"
  | .iterable _ => "InvalidIterableError"
  | .toolNotFound _ => "ToolNotFoundError"
  | .toolArgument _ _ => "ToolArgumentError"
  | .toolExecution _ _ => "ToolExecutionError"
  | .runtime _ => "RuntimeError"

/-- What a cause says, without its place. -/
def message : Cause → String
  | .lexical message | .type message | .memberAccess message | .runtime message => message
  | .grammar message found => message ++ ", found " ++ found
  | .undefinedVariable name => "Undefined variable '" ++ name ++ "'"
  | .indexOutOfBounds index length =>
      "Index " ++ toString index ++ " out of bounds for list of length " ++ toString length
  | .divisionByZero => "Division by zero"
  | .condition found => "IF condition must evaluate to a boolean, found " ++ found.name
  | .iterable found => "FOR loop expects a list to iterate over, found " ++ found.name
  | .toolNotFound tool => "Tool '" ++ tool ++ "' not found"
  | .toolArgument tool message => "Invalid arguments for tool '" ++ tool ++ "': " ++ message
  | .toolExecution tool message => "Tool '" ++ tool ++ "' failed: " ++ message

/-- Whether the cause lies in a tool and not in the script. -/
def isTool : Cause → Bool
  | .toolNotFound _ | .toolArgument _ _ | .toolExecution _ _ => true
  | _ => false

/-- Whether the source text is at fault, so that nothing has run. -/
def isSource : Cause → Bool
  | .lexical _ | .grammar _ _ => true
  | _ => false

end Cause

/-- A cause and, if it is known, its place. -/
structure Failure where
  cause : Cause
  position : Option Position
deriving DecidableEq, Repr

/-- The failure with this cause at the given place. -/
def Cause.located (cause : Cause) (position : Position) : Failure :=
  ⟨cause, some position⟩

namespace Failure

/-- What a failure says, with its place at the end. -/
def message (failure : Failure) : String :=
  match failure.position with
  | some position => failure.cause.message ++ " (at " ++ position.text ++ ")"
  | none => failure.cause.message

/-- Gives a failure a place unless it has one. -/
def orPosition (failure : Failure) (position : Position) : Failure :=
  { failure with position := some (failure.position.getD position) }

end Failure

end ToolScript
