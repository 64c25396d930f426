import ToolScript.Builtin
import ToolScript.Operator

/-!
# Evaluating expressions

Operands, arguments, items and entries are evaluated from left to right, each exactly
once; `AND` and `OR` evaluate both sides. A tool is looked up before its arguments are
evaluated, a built-in function behind them. Evaluating reads the scope and never changes it.
-/

namespace ToolScript

namespace Run

variable {σ α : Type}

/-- Gives a failure that has no place the place of a call. -/
def withPosition (pos : Position) (run : Run σ α) : Run σ α :=
  tryCatchThe Halt run fun
    | .failed failure => fail (failure.orPosition pos)
    | .cancelled => throw .cancelled

/-- Calls a built-in function by its name. -/
def callNamed (host : Host σ) (pos : Position) (name : String) (args : List Value) :
    Run σ Value :=
  match Builtin.ofName? name with
  | some builtin => withPosition pos (builtin.call host args)
  | none => fail ((Cause.runtime ("Unknown function '" ++ name ++ "'")).located pos)

end Run

namespace Expr

variable {σ : Type}

mutual

/-- Evaluates an expression in a scope. -/
def eval (host : Host σ) (scope : Scope) : Expr → Run σ Value
  | .literal _ value => pure value
  | .ref pos name =>
      match scope.get? name with
      | some value => pure value
      | none => Run.fail ((Cause.undefinedVariable name).located pos)
  | .binary pos op left right => do
      let a ← left.eval host scope
      let b ← right.eval host scope
      Run.ofExcept pos (op.apply a b)
  | .unary pos op operand => do
      let a ← operand.eval host scope
      Run.ofExcept pos (op.apply a)
  | .apply pos name args => do
      let values ← evalItems host scope args
      Run.callNamed host pos name values
  | .tool pos name args =>
      match host.tool? name with
      | none => Run.fail ((Cause.toolNotFound name).located pos)
      | some found => do
          let values ← evalEntries host scope args
          Run.invoke pos name found values
  | .list _ items => do
      let values ← evalItems host scope items
      pure (.list values)
  | .object _ entries => do
      let values ← evalEntries host scope entries
      pure (.object values)
  | .index pos subject place => do
      match ← subject.eval host scope with
      | .list items =>
          let number ← place.eval host scope
          Run.ofExcept pos (itemAt items number)
      | _ => Run.fail ((Cause.type "Cannot access index on non-list value").located pos)
  | .member pos subject property => do
      match ← subject.eval host scope with
      | .object entries => Run.ofExcept pos (entryAt entries property)
      | _ =>
          Run.fail ((Cause.memberAccess
            ("Cannot access property '" ++ property ++ "' on non-object value")).located pos)
termination_by structural e => e

/-- Evaluates expressions from left to right. -/
def evalItems (host : Host σ) (scope : Scope) : List Expr → Run σ (List Value)
  | [] => pure []
  | e :: rest => do
      let value ← e.eval host scope
      let values ← evalItems host scope rest
      pure (value :: values)
termination_by structural items => items

/-- Evaluates named expressions from left to right. -/
def evalEntries (host : Host σ) (scope : Scope) : List (String × Expr) → Run σ (Dict Value)
  | [] => pure []
  | (name, e) :: rest => do
      let value ← e.eval host scope
      let values ← evalEntries host scope rest
      pure ((name, value) :: values)
termination_by structural entries => entries

end

end Expr

end ToolScript
