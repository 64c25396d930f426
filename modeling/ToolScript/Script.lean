import ToolScript.Position
import ToolScript.Value

/-!
# Scripts

A script is a list of statements over expressions. Every node carries the position
of the token that makes it: the operator, the opening bracket of an index, the dot
of a member, and otherwise the first token.
-/

namespace ToolScript

/-- Operators between two operands. -/
inductive BinaryOp where
  | add
  | sub
  | mul
  | div
  | mod
  | equal
  | notEqual
  | less
  | lessEqual
  | greater
  | greaterEqual
  | and
  | or
deriving DecidableEq, Repr

/-- Operators before an operand. -/
inductive UnaryOp where
  | not
  | negate
  | plus
deriving DecidableEq, Repr

/-- The operator in the source text. -/
def BinaryOp.symbol : BinaryOp → String
  | .add => "+"
  | .sub => "-"
  | .mul => "*"
  | .div => "/"
  | .mod => "%"
  | .equal => "=="
  | .notEqual => "!="
  | .less => "<"
  | .lessEqual => "<="
  | .greater => ">"
  | .greaterEqual => ">="
  | .and => "AND"
  | .or => "OR"

/-- The operator in the source text. -/
def UnaryOp.symbol : UnaryOp → String
  | .not => "NOT"
  | .negate => "-"
  | .plus => "+"

/-- Expressions. `ref` names a variable, `apply` calls a built-in function by its name
and `tool` calls a tool with named arguments. -/
inductive Expr where
  | literal (pos : Position) (value : Value)
  | ref (pos : Position) (name : String)
  | binary (pos : Position) (op : BinaryOp) (left right : Expr)
  | unary (pos : Position) (op : UnaryOp) (operand : Expr)
  | apply (pos : Position) (name : String) (args : List Expr)
  | tool (pos : Position) (name : String) (args : List (String × Expr))
  | list (pos : Position) (items : List Expr)
  | object (pos : Position) (entries : List (String × Expr))
  | index (pos : Position) (subject place : Expr)
  | member (pos : Position) (subject : Expr) (property : String)

instance : Inhabited Expr := ⟨.literal .start .null⟩

/-- Statements: bind a variable, call a tool, choose a branch, repeat for each item of
a list, and evaluate an expression for its effects. -/
inductive Stmt where
  | bind (pos : Position) (name : String) (value : Expr)
  | call (pos : Position) (tool : String) (args : List (String × Expr))
  | branch (pos : Position) (condition : Expr) (yes : List Stmt) (no : Option (List Stmt))
  | each (pos : Position) (name : String) (items : Expr) (body : List Stmt)
  | expr (pos : Position) (expr : Expr)

instance : Inhabited Stmt := ⟨.expr .start default⟩

/-- A list of statements that run one after the other. -/
structure Script where
  statements : List Stmt

namespace Expr

/-- The position of the token that makes the expression. -/
def position : Expr → Position
  | .literal pos _ | .ref pos _ | .binary pos _ _ _ | .unary pos _ _ | .apply pos _ _
  | .tool pos _ _ | .list pos _ | .object pos _ | .index pos _ _ | .member pos _ _ => pos

mutual

/-- The number of nodes on the longest path from the root down. -/
def height : Expr → Nat
  | .literal _ _ | .ref _ _ => 1
  | .binary _ _ left right => max left.height right.height + 1
  | .unary _ _ operand => operand.height + 1
  | .apply _ _ args => heightItems args + 1
  | .tool _ _ args => heightEntries args + 1
  | .list _ items => heightItems items + 1
  | .object _ entries => heightEntries entries + 1
  | .index _ subject place => max subject.height place.height + 1
  | .member _ subject _ => subject.height + 1
termination_by structural e => e

/-- The largest height in a list of expressions. -/
def heightItems : List Expr → Nat
  | [] => 0
  | e :: rest => max e.height (heightItems rest)
termination_by structural items => items

/-- The largest height among named expressions. -/
def heightEntries : List (String × Expr) → Nat
  | [] => 0
  | (_, e) :: rest => max e.height (heightEntries rest)
termination_by structural entries => entries

end

end Expr

namespace Stmt

/-- The position of the first token of a statement. -/
def position : Stmt → Position
  | .bind pos _ _ | .call pos _ _ | .branch pos _ _ _ | .each pos _ _ _ | .expr pos _ => pos

end Stmt

end ToolScript
