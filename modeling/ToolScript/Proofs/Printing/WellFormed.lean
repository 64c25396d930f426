import ToolScript.Proofs.Cutting
import ToolScript.Script.Printer

/-!
# Trees that can be written

A tree can be written if its names are names of the language, its literals have a source
text, and no dictionary has a name twice. Trees that differ only in their positions have the
same unplaced form.
-/

namespace ToolScript

/-- The word can be used as a name: it is spelled like one and not reserved. -/
def IsIdentifier (word : String) : Prop :=
  Lexer.isWord word = true ∧ Keyword.ofSpelling? word = none

/-- The number is written with digits, with a point only between digits, and its text is read
as the number itself. -/
def Number.Readable (n : Float) : Prop :=
  Decimal.Plain (Number.text n).toList ∧ Number.ofText? (Number.text n) = some n

/-- The value has a source text as a literal of its own. -/
def Value.Writable : Value → Prop
  | .null | .bool _ | .string _ => True
  | .number n => Number.Readable n
  | .list _ | .object _ => False

namespace Expr

/-- The function can be written with the arguments: its name is an identifier or a reserved
word that stands for a function. -/
def Callable (name : String) (args : List Expr) : Prop :=
  IsIdentifier name ∨ name = Keyword.kwPrint.spelling ∨
    name = Keyword.kwNow.spelling ∧ args = []

mutual

/-- The expression can be written. -/
def WellFormed : Expr → Prop
  | .literal _ value => value.Writable
  | .ref _ name => IsIdentifier name
  | .binary _ _ left right => left.WellFormed ∧ right.WellFormed
  | .unary _ _ operand => operand.WellFormed
  | .apply _ name args => Callable name args ∧ WellFormedItems args
  | .tool _ name args =>
      IsIdentifier name ∧ Dict.Unique args ∧ (∀ key ∈ Dict.keys args, IsIdentifier key) ∧
        WellFormedEntries args
  | .list _ items => WellFormedItems items
  | .object _ entries => Dict.Unique entries ∧ WellFormedEntries entries
  | .index _ subject place => subject.WellFormed ∧ place.WellFormed
  | .member _ subject property => subject.WellFormed ∧ IsIdentifier property
termination_by structural e => e

/-- All the expressions can be written. -/
def WellFormedItems : List Expr → Prop
  | [] => True
  | e :: rest => e.WellFormed ∧ WellFormedItems rest
termination_by structural items => items

/-- All the named expressions can be written. -/
def WellFormedEntries : List (String × Expr) → Prop
  | [] => True
  | (_, e) :: rest => e.WellFormed ∧ WellFormedEntries rest
termination_by structural entries => entries

end

mutual

/-- The expression with all positions taken out. -/
def unplaced : Expr → Expr
  | .literal _ value => .literal .start value
  | .ref _ name => .ref .start name
  | .binary _ op left right => .binary .start op left.unplaced right.unplaced
  | .unary _ op operand => .unary .start op operand.unplaced
  | .apply _ name args => .apply .start name (unplacedItems args)
  | .tool _ name args => .tool .start name (unplacedEntries args)
  | .list _ items => .list .start (unplacedItems items)
  | .object _ entries => .object .start (unplacedEntries entries)
  | .index _ subject place => .index .start subject.unplaced place.unplaced
  | .member _ subject property => .member .start subject.unplaced property
termination_by structural e => e

/-- The expressions with all positions taken out. -/
def unplacedItems : List Expr → List Expr
  | [] => []
  | e :: rest => e.unplaced :: unplacedItems rest
termination_by structural items => items

/-- The named expressions with all positions taken out. -/
def unplacedEntries : List (String × Expr) → List (String × Expr)
  | [] => []
  | (name, e) :: rest => (name, e.unplaced) :: unplacedEntries rest
termination_by structural entries => entries

end

theorem keys_unplacedEntries (entries : List (String × Expr)) :
    Dict.keys (unplacedEntries entries) = Dict.keys entries := by
  induction entries with
  | nil => rfl
  | cons entry rest ih => exact congrArg (entry.1 :: ·) ih

mutual

theorem height_unplaced (e : Expr) : e.unplaced.height = e.height := by
  cases e with
  | literal | ref => rfl
  | binary _ _ a b | index _ a b =>
      simp only [unplaced, height, height_unplaced a, height_unplaced b]
  | unary _ _ a | member _ a => simp only [unplaced, height, height_unplaced a]
  | apply _ _ items | list _ items => simp only [unplaced, height, heightItems_unplaced items]
  | tool _ _ entries | object _ entries =>
      simp only [unplaced, height, heightEntries_unplaced entries]

theorem heightItems_unplaced (items : List Expr) :
    heightItems (unplacedItems items) = heightItems items := by
  cases items with
  | nil => rfl
  | cons e rest =>
      simp only [unplacedItems, heightItems, height_unplaced e, heightItems_unplaced rest]

theorem heightEntries_unplaced (entries : List (String × Expr)) :
    heightEntries (unplacedEntries entries) = heightEntries entries := by
  cases entries with
  | nil => rfl
  | cons entry rest =>
      simp only [unplacedEntries, heightEntries, height_unplaced entry.2,
        heightEntries_unplaced rest]

end

theorem height_eq_of_unplaced {e e' : Expr} (h : e'.unplaced = e.unplaced) :
    e'.height = e.height := by
  rw [← height_unplaced e', h, height_unplaced]

end Expr

namespace Stmt

mutual

/-- The statement can be written. -/
def WellFormed : Stmt → Prop
  | .bind _ name value => IsIdentifier name ∧ value.WellFormed
  | .call _ tool args =>
      IsIdentifier tool ∧ Dict.Unique args ∧ (∀ key ∈ Dict.keys args, IsIdentifier key) ∧
        Expr.WellFormedEntries args
  | .branch _ condition yes none => condition.WellFormed ∧ WellFormedBlock yes
  | .branch _ condition yes (some no) =>
      condition.WellFormed ∧ WellFormedBlock yes ∧ WellFormedBlock no
  | .each _ name items body => IsIdentifier name ∧ items.WellFormed ∧ WellFormedBlock body
  | .expr _ e => e.WellFormed
termination_by structural stmt => stmt

/-- All the statements can be written. -/
def WellFormedBlock : List Stmt → Prop
  | [] => True
  | stmt :: rest => stmt.WellFormed ∧ WellFormedBlock rest
termination_by structural stmts => stmts

end

mutual

/-- The statement with all positions taken out. -/
def unplaced : Stmt → Stmt
  | .bind _ name value => .bind .start name value.unplaced
  | .call _ tool args => .call .start tool (Expr.unplacedEntries args)
  | .branch _ condition yes none => .branch .start condition.unplaced (unplacedBlock yes) none
  | .branch _ condition yes (some no) =>
      .branch .start condition.unplaced (unplacedBlock yes) (some (unplacedBlock no))
  | .each _ name items body => .each .start name items.unplaced (unplacedBlock body)
  | .expr _ e => .expr .start e.unplaced
termination_by structural stmt => stmt

/-- The statements with all positions taken out. -/
def unplacedBlock : List Stmt → List Stmt
  | [] => []
  | stmt :: rest => stmt.unplaced :: unplacedBlock rest
termination_by structural stmts => stmts

end

theorem length_unplacedBlock (stmts : List Stmt) :
    (unplacedBlock stmts).length = stmts.length := by
  induction stmts with
  | nil => rfl
  | cons stmt rest ih => exact congrArg (· + 1) ih

end Stmt

/-- The script can be written. -/
def Script.WellFormed (script : Script) : Prop :=
  Stmt.WellFormedBlock script.statements

/-- The script with all positions taken out. -/
def Script.unplaced (script : Script) : Script :=
  ⟨Stmt.unplacedBlock script.statements⟩

end ToolScript
