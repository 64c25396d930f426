import ToolScript.Proofs.Grammar.Recognition

/-!
# How deep a script that was read can be

A derivation takes at least as much room as its tree is high, less one, and an outline at
least as much as any of its expressions is high and the blocks around it are many. So
whatever is read stays within the largest nesting.
-/

namespace ToolScript

namespace Stmt

/-- The expressions that stand directly in a statement. -/
def direct : Stmt → List Expr
  | .bind _ _ e | .expr _ e | .branch _ e _ _ | .each _ _ e _ => [e]
  | .call _ _ args => args.map Prod.snd

mutual

/-- The statement and those in its blocks, each with the number of blocks around it, where
`depth` blocks are around the first. -/
def placed (depth : Nat) : Stmt → List (Nat × Stmt)
  | .branch pos e yes none => (depth, .branch pos e yes none) :: placedIn (depth + 1) yes
  | .branch pos e yes (some no) =>
      (depth, .branch pos e yes (some no)) ::
        (placedIn (depth + 1) yes ++ placedIn (depth + 1) no)
  | .each pos name e body => (depth, .each pos name e body) :: placedIn (depth + 1) body
  | stmt => [(depth, stmt)]
termination_by structural stmt => stmt

/-- All the statements in a row, each with the number of blocks around it. -/
def placedIn (depth : Nat) : List Stmt → List (Nat × Stmt)
  | [] => []
  | stmt :: rest => placed depth stmt ++ placedIn depth rest
termination_by structural stmts => stmts

end

end Stmt

/-- All the statements of a script, each with the number of blocks around it. -/
def Script.placed (script : Script) : List (Nat × Stmt) :=
  Stmt.placedIn 0 script.statements

namespace Expr

theorem heightEntries_insert_le (entries : Dict Expr) (name : String) (e : Expr) :
    heightEntries (Dict.insert entries name e) ≤ max (heightEntries entries) e.height := by
  induction entries with
  | nil => simp [heightEntries]
  | cons entry rest ih =>
      obtain ⟨key, old⟩ := entry
      simp only [Dict.insert]
      split
      · simp only [heightEntries]
        omega
      · simp only [heightEntries]
        omega

/-- Repeated names make no entry higher. -/
theorem heightEntries_merged_le (entries : List (String × Expr)) :
    heightEntries (Grammar.merged entries) ≤ heightEntries entries := by
  rw [Grammar.merged_eq]
  suffices h : ∀ dict : Dict Expr,
      heightEntries (entries.foldl (fun dict entry => Dict.insert dict entry.1 entry.2) dict) ≤
        max (heightEntries dict) (heightEntries entries) by
    simpa [Dict.ofList, heightEntries] using h []
  induction entries with
  | nil => exact fun dict => Nat.le_max_left _ _
  | cons entry rest ih =>
      intro dict
      have hrest := ih (Dict.insert dict entry.1 entry.2)
      have hentry := heightEntries_insert_le dict entry.1 entry.2
      simp only [List.foldl_cons, heightEntries]
      omega

theorem height_le_heightEntries {entries : List (String × Expr)} {e : Expr}
    (h : e ∈ entries.map Prod.snd) : e.height ≤ heightEntries entries := by
  induction entries with
  | nil => cases h
  | cons entry rest ih =>
      rw [List.map_cons, List.mem_cons] at h
      simp only [heightEntries]
      rcases h with rfl | h
      · exact Nat.le_max_left _ _
      · exact Nat.le_trans (ih h) (Nat.le_max_right _ _)

end Expr

namespace Grammar

/-- The trees of a phrase are no higher than its room allows. -/
def Phrase.Low (room : Nat) : Phrase → Prop
  | .chain _ e | .accessed e | .primary e => e.height ≤ room + 1
  | .items es => Expr.heightItems es ≤ room
  | .entries _ es => Expr.heightEntries es ≤ room

theorem Derivation.low {p : Phrase} {ts : List Token} (d : Derivation p ts) : p.Low d.room := by
  induction d with
  | operand _ ih | tighter _ ih | primary _ ih => exact ih
  | literal | ref | now | noItems | noEntries => exact Nat.le_refl _
  | unary _ _ ih | apply _ _ _ _ ih | list _ _ _ _ ih => exact Nat.succ_le_succ ih
  | group _ _ _ ih => exact Nat.le_succ_of_le ih
  | binary | index | member =>
      simp only [Phrase.Low, Derivation.room, Expr.height]
      omega
  | @tool _ _ _ _ es _ _ _ _ _ _ ih | @object _ _ es _ _ _ _ _ _ ih =>
      exact Nat.succ_le_succ (Nat.le_trans (Expr.heightEntries_merged_le es) ih)
  | lastItem _ ih | lastEntry _ _ _ ih =>
      simp only [Phrase.Low, Expr.heightItems, Expr.heightEntries, Derivation.room] at ih ⊢
      omega
  | moreItems _ _ _ ih ih' | moreEntries _ _ _ _ _ ih ih' =>
      simp only [Phrase.Low, Expr.heightItems, Expr.heightEntries, Derivation.room] at ih ih' ⊢
      omega

/-- The statement and its expressions are no deeper than `limit`. -/
def Shallow (limit : Nat) (p : Nat × Stmt) : Prop :=
  p.1 ≤ limit ∧ ∀ e ∈ p.2.direct, p.1 + e.height ≤ limit

theorem Shallow.mono {m n : Nat} {p : Nat × Stmt} (h : Shallow m p) (hmn : m ≤ n) :
    Shallow n p :=
  ⟨Nat.le_trans h.1 hmn, fun e he => Nat.le_trans (h.2 e he) hmn⟩

/-- A statement with a single expression that is not too high. -/
theorem Shallow.single {depth room : Nat} {stmt : Stmt} {e : Expr} (hdirect : stmt.direct = [e])
    (h : e.height ≤ room) : Shallow (depth + room) (depth, stmt) := by
  refine ⟨Nat.le_add_right _ _, fun e' he' => ?_⟩
  rw [hdirect, List.mem_singleton] at he'
  subst he'
  exact Nat.add_le_add_left h depth

/-- All the statements of a passage under `depth` blocks are as shallow as its room allows. -/
def Passage.Low (room : Nat) : Passage → Prop
  | .statement stmt => ∀ depth, ∀ p ∈ stmt.placed depth, Shallow (depth + room) p
  | .statements stmts => ∀ depth, ∀ p ∈ Stmt.placedIn depth stmts, Shallow (depth + room) p

/-- What stands in a block has one unit of room less. -/
theorem Passage.Low.inBlock {stmts : List Stmt} {room n depth : Nat}
    (h : (Passage.statements stmts).Low n) (hn : n < room) :
    ∀ p ∈ Stmt.placedIn (depth + 1) stmts, Shallow (depth + room) p :=
  fun p hp => (h (depth + 1) p hp).mono (by omega)

theorem Outline.low {p : Passage} {ts : List Token} (o : Outline p ts) : p.Low o.room := by
  induction o with
  | bind _ _ _ d | expr d =>
      intro depth p hp
      obtain rfl := List.mem_singleton.1 hp
      exact .single rfl d.low
  | @call _ _ _ _ es _ _ _ _ d =>
      intro depth p hp
      obtain rfl := List.mem_singleton.1 hp
      refine ⟨Nat.le_add_right _ _, fun e he => Nat.add_le_add_left ?_ depth⟩
      calc e.height
        _ ≤ Expr.heightEntries (merged es) := Expr.height_le_heightEntries he
        _ ≤ Expr.heightEntries es := Expr.heightEntries_merged_le es
        _ ≤ d.room := d.low
  | @branch _ _ _ e yes _ _ _ d _ o _ ih =>
      intro depth p hp
      rcases List.mem_cons.1 hp with rfl | hp
      · exact .single rfl (Nat.le_trans d.low (by simp only [Outline.room]; omega))
      · exact ih.inBlock (by simp only [Outline.room]; omega) p hp
  | @branches _ _ _ _ e yes no _ _ _ _ d _ o _ o' _ ih ih' =>
      intro depth p hp
      rcases List.mem_cons.1 hp with rfl | hp
      · exact .single rfl (Nat.le_trans d.low (by simp only [Outline.room]; omega))
      · rcases List.mem_append.1 hp with hp | hp
        · exact ih.inBlock (by simp only [Outline.room]; omega) p hp
        · exact ih'.inBlock (by simp only [Outline.room]; omega) p hp
  | @each _ _ _ _ _ e body _ _ _ _ _ d _ o _ ih =>
      intro depth p hp
      rcases List.mem_cons.1 hp with rfl | hp
      · exact .single rfl (Nat.le_trans d.low (by simp only [Outline.room]; omega))
      · exact ih.inBlock (by simp only [Outline.room]; omega) p hp
  | none =>
      intro depth p hp
      cases hp
  | cons o o' _ ih ih' =>
      intro depth p hp
      rcases List.mem_append.1 hp with hp | hp
      · exact (ih depth p hp).mono (by simp only [Outline.room]; omega)
      · exact (ih' depth p hp).mono (by simp only [Outline.room]; omega)

end Grammar

open Grammar

theorem Script.shallow_of_outline {script : Script} {tokens : List Token}
    (o : Outline (.statements script.statements) tokens) (ho : o.room ≤ maxNesting) :
    ∀ p ∈ script.placed, Shallow maxNesting p :=
  fun p hp => (o.low 0 p hp).mono (by omega)

/-- Whatever is read stays within the largest nesting: a script made of any tokens, a script
in any text, and an expression in any text. -/
theorem nesting_le_maxNesting :
    (∀ tokens script, Script.ofTokens tokens = .ok script →
      ∀ p ∈ script.placed, p.1 ≤ maxNesting ∧ ∀ e ∈ p.2.direct, p.1 + e.height ≤ maxNesting) ∧
    (∀ source script, Script.parse source = .ok script →
      ∀ p ∈ script.placed, p.1 ≤ maxNesting ∧ ∀ e ∈ p.2.direct, p.1 + e.height ≤ maxNesting) ∧
    ∀ source e, Expr.parse source = .ok e → e.height ≤ maxNesting := by
  refine ⟨fun tokens script h => ?_, fun source script h => ?_, fun source e h => ?_⟩
  · obtain ⟨t, hread⟩ := result_eq_ok (Script.ofTokens_eq_ok h)
    obtain ⟨ts, -, -, o, ho⟩ := sound_statements _ _ _ (Stream.closed_ofTokens tokens) hread
    exact script.shallow_of_outline o ho
  · obtain ⟨tokens, -, o, ho⟩ := Script.parse_eq_ok h
    exact script.shallow_of_outline o ho
  · obtain ⟨tokens, -, d, hd⟩ := Expr.parse_eq_ok h
    exact Nat.le_trans d.low hd

theorem nesting_le_maxNesting_loop :
    let inner : Stmt := .expr ⟨1, 15⟩ (.unary ⟨1, 15⟩ .not (.ref ⟨1, 19⟩ "x"))
    Script.parse "FOR x IN y DO NOT x END" =
      .ok ⟨[.each ⟨1, 1⟩ "x" (.ref ⟨1, 10⟩ "y") [inner]]⟩ ∧
    ∀ e ∈ inner.direct, 1 + e.height ≤ maxNesting := by
  intro inner
  have hparse : Script.parse "FOR x IN y DO NOT x END" =
      .ok ⟨[.each ⟨1, 1⟩ "x" (.ref ⟨1, 10⟩ "y") [inner]]⟩ := by
    cbv
  have hinner : (1, inner) ∈ (Script.mk [.each ⟨1, 1⟩ "x" (.ref ⟨1, 10⟩ "y") [inner]]).placed :=
    .tail _ (.head _)
  exact ⟨hparse, (nesting_le_maxNesting.2.1 _ _ hparse (1, inner) hinner).2⟩

end ToolScript
