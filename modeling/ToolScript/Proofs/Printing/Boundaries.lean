import ToolScript.Proofs.Printing.WellFormed

/-!
# Written statements that run into each other

Whether a statement is put in parentheses depends on how the next one begins by itself. But
the next one can get parentheses of its own from the statement behind it. If the first of
three statements ends in a variable that was left without parentheses then, the second one
is taken for the argument of a call. The joined form of a script shows what its text amounts
to, and a script is separate if no two of its statements are joined.
-/

namespace ToolScript.Stmt

/-- Whether the last part of a statement is a variable, which could also name a function. -/
def endsInRef : Stmt → Bool
  | .bind _ _ (.ref _ _) | .expr _ (.ref _ _) => true
  | _ => false

/-- Whether the text of a statement begins with a parenthesis if it is followed as `guard`
says. -/
def beginsWithParen (guard : Bool) : Stmt → Bool
  | .expr _ e => (guarded guard e.statementText).toList.head? == some '('
  | _ => false

/-- Whether the first of the statements is written with a parenthesis in front. -/
def parenAhead : List Stmt → Bool
  | next :: rest => next.beginsWithParen (needsGuard rest)
  | [] => false

/-- Whether the variable at the end of a statement takes the next statement for its
argument. -/
def runsOn (stmt : Stmt) (rest : List Stmt) : Bool :=
  stmt.endsInRef && !needsGuard rest && parenAhead rest

/-- The statement with its last variable called with the expression of the next one. -/
def taking : Stmt → Stmt → Stmt
  | .bind pos name (.ref place f), .expr _ e => .bind pos name (.apply place f [e])
  | .expr pos (.ref place f), .expr _ e => .expr pos (.apply place f [e])
  | stmt, _ => stmt

mutual

/-- The statement with joined blocks. -/
def joined : Stmt → Stmt
  | .branch pos condition yes none => .branch pos condition (joinedBlock yes) none
  | .branch pos condition yes (some no) =>
      .branch pos condition (joinedBlock yes) (some (joinedBlock no))
  | .each pos name items body => .each pos name items (joinedBlock body)
  | .bind pos name value => .bind pos name value
  | .call pos tool args => .call pos tool args
  | .expr pos e => .expr pos e
termination_by structural stmt => stmt

/-- The statements as they are read back: those that run on take the next one. -/
def joinedBlock : List Stmt → List Stmt
  | [] => []
  | [stmt] => [joined stmt]
  | stmt :: next :: rest =>
      if runsOn stmt (next :: rest) then taking stmt next :: joinedBlock rest
      else joined stmt :: joinedBlock (next :: rest)
termination_by structural stmts => stmts

end

mutual

/-- No statement in the blocks of the statement runs on. -/
def separate : Stmt → Bool
  | .branch _ _ yes none => separateBlock yes
  | .branch _ _ yes (some no) => separateBlock yes && separateBlock no
  | .each _ _ _ body => separateBlock body
  | .bind _ _ _ | .call _ _ _ | .expr _ _ => true
termination_by structural stmt => stmt

/-- None of the statements runs on. -/
def separateBlock : List Stmt → Bool
  | [] => true
  | stmt :: rest => !runsOn stmt rest && separate stmt && separateBlock rest
termination_by structural stmts => stmts

end

theorem length_joinedBlock_le (stmts : List Stmt) : (joinedBlock stmts).length ≤ stmts.length := by
  match stmts with
  | [] => exact Nat.le_refl _
  | [stmt] => exact Nat.le_refl _
  | stmt :: next :: rest =>
      have hrest := length_joinedBlock_le rest
      have hnext := length_joinedBlock_le (next :: rest)
      simp only [joinedBlock]
      split
      · simp only [List.length_cons]
        omega
      · simp only [List.length_cons] at hnext ⊢
        omega

theorem joinedBlock_cons {stmt : Stmt} {rest : List Stmt} (h : runsOn stmt rest = false) :
    joinedBlock (stmt :: rest) = joined stmt :: joinedBlock rest := by
  cases rest with
  | nil => rfl
  | cons next rest => simp only [joinedBlock, h, Bool.false_eq_true, if_false]

mutual

theorem unplaced_joined_eq_iff (stmt : Stmt) :
    stmt.joined.unplaced = stmt.unplaced ↔ stmt.separate = true := by
  cases stmt with
  | branch pos condition yes no =>
      cases no with
      | none => simp [joined, unplaced, separate, unplaced_joinedBlock_eq_iff yes]
      | some no =>
          simp [joined, unplaced, separate, unplaced_joinedBlock_eq_iff yes,
            unplaced_joinedBlock_eq_iff no]
  | each pos name items body =>
      simp [joined, unplaced, separate, unplaced_joinedBlock_eq_iff body]
  | bind | call | expr => simp [joined, separate]

/-- Statements are read back as they are exactly if none of them runs on. -/
theorem unplaced_joinedBlock_eq_iff (stmts : List Stmt) :
    unplacedBlock (joinedBlock stmts) = unplacedBlock stmts ↔ separateBlock stmts = true := by
  match stmts with
  | [] => simp [joinedBlock, separateBlock]
  | stmt :: rest =>
      cases hruns : runsOn stmt rest with
      | false =>
          rw [joinedBlock_cons hruns]
          simp [unplacedBlock, separateBlock, hruns, unplaced_joined_eq_iff stmt,
            unplaced_joinedBlock_eq_iff rest]
      | true =>
          -- a statement is lost where one takes the next
          match rest with
          | [] => simp [runsOn, parenAhead] at hruns
          | next :: rest =>
              have hlength := length_joinedBlock_le rest
              simp only [joinedBlock, hruns, if_true, separateBlock, Bool.not_true,
                Bool.false_and, Bool.false_eq_true, iff_false]
              intro heq
              have hcount := congrArg List.length heq
              simp only [length_unplacedBlock, List.length_cons] at hcount
              omega

end

end ToolScript.Stmt

namespace ToolScript

/-- The script as its text is read back. -/
def Script.joined (script : Script) : Script :=
  ⟨Stmt.joinedBlock script.statements⟩

/-- No statement of the script runs on. -/
def Script.separate (script : Script) : Bool :=
  Stmt.separateBlock script.statements

theorem Script.unplaced_joined_eq_iff (script : Script) :
    script.joined.unplaced = script.unplaced ↔ script.separate = true := by
  rw [Script.separate, ← Stmt.unplaced_joinedBlock_eq_iff]
  exact ⟨fun h => congrArg Script.statements h, fun h => congrArg Script.mk h⟩

end ToolScript
