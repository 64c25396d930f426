import ToolScript.Proofs.Nesting
import ToolScript.Proofs.Printing.WellFormed

/-!
# The room that written trees take

The parentheses of a written tree take room of their own when the text is read. How much room
a text takes is computed from the tree here. An expression never takes twice its height, but
a tree that just fits into the largest room need not fit any more once it is written.
-/

namespace ToolScript

open Grammar

namespace Expr

mutual

/-- The room that reading the text of the expression takes. -/
def textRoom : Expr → Nat
  | .literal _ _ | .ref _ _ => 0
  | .binary _ _ left right =>
      max (max left.textRoom right.textRoom) (max left.height right.height + 1) + 1
  | .unary _ _ operand => operand.textRoom + 2
  | .apply _ _ args => textRoomItems args
  | .tool _ _ args => textRoomEntries args + 1
  | .list _ items => textRoomItems items
  | .object _ entries => textRoomEntries entries
  | .index _ subject place =>
      max (max subject.textRoom (place.textRoom + 1)) (max subject.height place.height + 1)
  | .member _ subject _ => max subject.textRoom (subject.height + 1)
termination_by structural e => e

/-- The room that reading the texts of expressions with commas between them takes. -/
def textRoomItems : List Expr → Nat
  | [] => 0
  | e :: rest => max (e.textRoom + 1) (textRoomItems rest)
termination_by structural items => items

/-- The room that reading the texts of named expressions takes. -/
def textRoomEntries : List (String × Expr) → Nat
  | [] => 0
  | (_, e) :: rest => max (e.textRoom + 1) (textRoomEntries rest)
termination_by structural entries => entries

end

mutual

theorem textRoom_lt (e : Expr) : e.textRoom < 2 * e.height := by
  cases e with
  | literal | ref => exact Nat.zero_lt_succ _
  | binary _ _ a b | index _ a b =>
      have ha := textRoom_lt a
      have hb := textRoom_lt b
      simp only [textRoom, height]
      omega
  | unary _ _ a | member _ a =>
      have ha := textRoom_lt a
      simp only [textRoom, height]
      omega
  | apply _ _ items | list _ items =>
      have hitems := textRoomItems_le items
      simp only [textRoom, height]
      omega
  | tool _ _ entries | object _ entries =>
      have hentries := textRoomEntries_le entries
      simp only [textRoom, height]
      omega

theorem textRoomItems_le (items : List Expr) : textRoomItems items ≤ 2 * heightItems items := by
  cases items with
  | nil => exact Nat.le_refl _
  | cons e rest =>
      have hfirst := textRoom_lt e
      have hrest := textRoomItems_le rest
      simp only [textRoomItems, heightItems]
      omega

theorem textRoomEntries_le (entries : List (String × Expr)) :
    textRoomEntries entries ≤ 2 * heightEntries entries := by
  cases entries with
  | nil => exact Nat.le_refl _
  | cons entry rest =>
      have hfirst := textRoom_lt entry.2
      have hrest := textRoomEntries_le rest
      simp only [textRoomEntries, heightEntries]
      omega

end

/-- The room for the expression written as `text`, which is its own text or that text in
parentheses. -/
def roomAs (e : Expr) (text : String) : Nat :=
  if text = e.text then e.textRoom else e.textRoom + 1

theorem roomAs_text (e : Expr) : e.roomAs e.text = e.textRoom :=
  if_pos rfl

theorem roomAs_parenthesized (e : Expr) : e.roomAs (parenthesized e.text) = e.textRoom + 1 := by
  apply if_neg
  intro h
  have hlength := congrArg (·.toList.length) h
  simp [parenthesized] at hlength
  omega

theorem roomAs_le (e : Expr) (text : String) : e.roomAs text ≤ 2 * e.height := by
  have hlt := e.textRoom_lt
  unfold roomAs
  split <;> omega

end Expr

namespace Stmt

mutual

/-- The room that reading the text of the statement takes. -/
def roomAt (guard : Bool) : Stmt → Nat
  | .bind _ _ e => e.roomAs (guarded guard e.text) + 1
  | .call _ _ args => Expr.textRoomEntries args
  | .branch _ e yes none => max e.textRoom (blockRoom yes) + 1
  | .branch _ e yes (some no) => max e.textRoom (max (blockRoom yes) (blockRoom no)) + 1
  | .each _ _ e body => max e.textRoom (blockRoom body) + 1
  | .expr _ e => e.roomAs (guarded guard e.statementText) + 1
termination_by structural stmt => stmt

/-- The room that reading the text of the statements takes. -/
def blockRoom : List Stmt → Nat
  | [] => 0
  | stmt :: rest => max (stmt.roomAt (needsGuard rest)) (blockRoom rest)
termination_by structural stmts => stmts

end

/-- There is room for the written expressions of the statements: for twice their height and
two more. -/
def Roomy (placed : List (Nat × Stmt)) : Prop :=
  ∀ p ∈ placed, ∀ e ∈ p.2.direct, p.1 + 2 + 2 * e.height ≤ maxNesting

theorem Roomy.height_le {stmt : Stmt} {depth : Nat} (h : Roomy (stmt.placed depth)) {e : Expr}
    (he : e ∈ stmt.direct) : 2 * e.height + 1 ≤ maxNesting - depth := by
  have hmem : (depth, stmt) ∈ stmt.placed depth := by
    cases stmt with
    | branch _ _ _ no => cases no <;> exact List.mem_cons_self
    | _ => exact List.mem_cons_self
  have hle := h _ hmem e he
  simp only at hle
  omega

theorem Roomy.left {ps qs : List (Nat × Stmt)} (h : Roomy (ps ++ qs)) : Roomy ps :=
  fun p hp => h p (List.mem_append_left _ hp)

theorem Roomy.right {ps qs : List (Nat × Stmt)} (h : Roomy (ps ++ qs)) : Roomy qs :=
  fun p hp => h p (List.mem_append_right _ hp)

theorem Roomy.tail {p : Nat × Stmt} {ps : List (Nat × Stmt)} (h : Roomy (p :: ps)) : Roomy ps :=
  fun q hq => h q (List.mem_cons_of_mem _ hq)

theorem heightEntries_le {args : List (String × Expr)} {n : Nat}
    (h : ∀ e ∈ args.map Prod.snd, 2 * e.height + 1 ≤ n) : 2 * Expr.heightEntries args ≤ n := by
  induction args with
  | nil => exact Nat.zero_le n
  | cons arg rest ih =>
      have hfirst := h arg.2 (by simp)
      have hrest := ih fun e he => h e (List.mem_cons_of_mem _ he)
      simp only [Expr.heightEntries]
      omega

mutual

theorem roomAt_le (stmt : Stmt) (depth : Nat) (guard : Bool)
    (h : Roomy (stmt.placed depth)) : stmt.roomAt guard ≤ maxNesting - depth := by
  cases stmt with
  | bind _ _ e | expr _ e =>
      exact Nat.le_trans (Nat.succ_le_succ (e.roomAs_le _)) (h.height_le List.mem_cons_self)
  | call _ _ args =>
      exact Nat.le_trans (Expr.textRoomEntries_le args)
        (heightEntries_le fun e he => h.height_le he)
  | branch _ e yes no =>
      have hlt := e.textRoom_lt
      have hheight := h.height_le List.mem_cons_self
      cases no with
      | none =>
          have hyes := blockRoom_le yes (depth + 1) h.tail
          simp only [roomAt]
          omega
      | some no =>
          have hyes := blockRoom_le yes (depth + 1) h.tail.left
          have hno := blockRoom_le no (depth + 1) h.tail.right
          simp only [roomAt]
          omega
  | each _ _ e body =>
      have hlt := e.textRoom_lt
      have hheight := h.height_le List.mem_cons_self
      have hbody := blockRoom_le body (depth + 1) h.tail
      simp only [roomAt]
      omega
termination_by structural stmt

theorem blockRoom_le (stmts : List Stmt) (depth : Nat) (h : Roomy (placedIn depth stmts)) :
    blockRoom stmts ≤ maxNesting - depth := by
  cases stmts with
  | nil => exact Nat.zero_le _
  | cons stmt rest =>
      exact Nat.max_le.2 ⟨roomAt_le stmt depth _ h.left, blockRoom_le rest depth h.right⟩
termination_by structural stmts

end

end Stmt

/-- The room that reading the text of the script takes. -/
def Script.textRoom (script : Script) : Nat :=
  Stmt.blockRoom script.statements

end ToolScript
