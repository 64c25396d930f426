import ToolScript.Run.Exec

/-!
# Nodes of trees

The nodes of an expression are listed from left to right, each behind the nodes inside it. That
is the order in which evaluation finishes them. A script has the nodes of all its expressions,
and its parts are all statements in it, those inside of blocks included.
-/

namespace ToolScript

namespace Expr

mutual

/-- The nodes of the expression, each behind those inside it. -/
def nodes : Expr → List Expr
  | .literal pos value => [.literal pos value]
  | .ref pos name => [.ref pos name]
  | .binary pos op left right => left.nodes ++ right.nodes ++ [.binary pos op left right]
  | .unary pos op operand => operand.nodes ++ [.unary pos op operand]
  | .apply pos name args => nodesItems args ++ [.apply pos name args]
  | .tool pos name args => nodesEntries args ++ [.tool pos name args]
  | .list pos items => nodesItems items ++ [.list pos items]
  | .object pos entries => nodesEntries entries ++ [.object pos entries]
  | .index pos subject place => subject.nodes ++ place.nodes ++ [.index pos subject place]
  | .member pos subject property => subject.nodes ++ [.member pos subject property]
termination_by structural e => e

/-- The nodes of the expressions one after the other. -/
def nodesItems : List Expr → List Expr
  | [] => []
  | e :: rest => e.nodes ++ nodesItems rest
termination_by structural items => items

/-- The nodes of the named expressions one after the other. -/
def nodesEntries : List (String × Expr) → List Expr
  | [] => []
  | (_, e) :: rest => e.nodes ++ nodesEntries rest
termination_by structural entries => entries

end

theorem mem_nodes (e : Expr) : e ∈ e.nodes := by
  cases e <;> simp [nodes]

end Expr

namespace Stmt

mutual

/-- The nodes of all expressions in the statement. -/
def nodes : Stmt → List Expr
  | .bind _ _ e | .expr _ e => e.nodes
  | .call _ _ args => Expr.nodesEntries args
  | .branch _ condition yes none => condition.nodes ++ nodesBlock yes
  | .branch _ condition yes (some no) => condition.nodes ++ nodesBlock yes ++ nodesBlock no
  | .each _ _ items body => items.nodes ++ nodesBlock body
termination_by structural stmt => stmt

/-- The nodes of all expressions in the statements. -/
def nodesBlock : List Stmt → List Expr
  | [] => []
  | stmt :: rest => stmt.nodes ++ nodesBlock rest
termination_by structural stmts => stmts

end

mutual

/-- The statement and all statements inside it. -/
def parts : Stmt → List Stmt
  | .bind pos name e => [.bind pos name e]
  | .call pos tool args => [.call pos tool args]
  | .branch pos condition yes none => .branch pos condition yes none :: partsBlock yes
  | .branch pos condition yes (some no) =>
      .branch pos condition yes (some no) :: (partsBlock yes ++ partsBlock no)
  | .each pos name items body => .each pos name items body :: partsBlock body
  | .expr pos e => [.expr pos e]
termination_by structural stmt => stmt

/-- The statements and all statements inside them. -/
def partsBlock : List Stmt → List Stmt
  | [] => []
  | stmt :: rest => stmt.parts ++ partsBlock rest
termination_by structural stmts => stmts

end

section Branch

variable {pos : Position} {condition : Expr} {yes : List Stmt} {no : Option (List Stmt)}

theorem nodes_branch : (Stmt.branch pos condition yes no).nodes =
    condition.nodes ++ nodesBlock yes ++ nodesBlock (no.getD []) := by
  cases no with
  | none => exact (List.append_nil _).symm
  | some no => rfl

theorem parts_branch : (Stmt.branch pos condition yes no).parts =
    .branch pos condition yes no :: (partsBlock yes ++ partsBlock (no.getD [])) := by
  cases no with
  | none => exact congrArg (List.cons _) (List.append_nil _).symm
  | some no => rfl

theorem nodes_condition_subset : condition.nodes ⊆ (Stmt.branch pos condition yes no).nodes := by
  rw [nodes_branch]
  exact List.subset_append_of_subset_left _ (List.subset_append_left _ _)

theorem nodes_chosen_subset {value : Value} {block : List Stmt}
    (h : chosen yes no value = some block) :
    nodesBlock block ⊆ (Stmt.branch pos condition yes no).nodes := by
  rw [nodes_branch]
  refine of_chosen (P := fun block => nodesBlock block ⊆ _) h ?_ ?_
  · exact List.subset_append_of_subset_left _ (List.subset_append_right _ _)
  · exact List.subset_append_right _ _

theorem parts_chosen_subset {value : Value} {block : List Stmt}
    (h : chosen yes no value = some block) :
    partsBlock block ⊆ (Stmt.branch pos condition yes no).parts := by
  rw [parts_branch]
  refine List.subset_cons_of_subset _ ?_
  refine of_chosen (P := fun block => partsBlock block ⊆ _) h ?_ ?_
  · exact List.subset_append_left _ _
  · exact List.subset_append_right _ _

end Branch

theorem mem_parts (stmt : Stmt) : stmt ∈ stmt.parts := by
  cases stmt with
  | branch pos condition yes no =>
      rw [parts_branch]
      exact List.mem_cons_self
  | bind | call | each | expr => simp [parts]

end Stmt

end ToolScript
