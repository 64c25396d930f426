import ToolScript.Proofs.Grammar.Reading
import ToolScript.Proofs.Lexing
import ToolScript.Proofs.Locating.Lines

/-!
# Where tokens, flaws and nodes stand

Tokens and flaws of a text stand at characters of it or at its end, and never between the two
characters of a line break: a token does not begin with a blank, and a flaw is reported where a
token begins or behind a backslash. For trees there is a predicate on the places of their nodes.
-/

namespace ToolScript

namespace Text.Quoted

theorem extend_eq_escape {raw read : List Char} {c : Char} {inner : Except Fault Literal}
    {flaw : Flaw} (h : extend raw c inner = .error (.escape read flaw)) :
    ∃ found, inner = .error (.escape found flaw) ∧ read = raw ++ found := by
  rcases inner with (_ | ⟨found, flaw'⟩) | _
  · cases h
  · cases h
    exact ⟨found, rfl, rfl⟩
  · cases h

/-- A bad escape is reported right behind its backslash. -/
theorem read_eq_escape {mark : Char} {cs read : List Char} {flaw : Flaw}
    (h : Quoted.read mark cs = .error (.escape read flaw)) :
    ∃ rest, cs = read ++ rest ∧ read.getLast? = some '\\' := by
  fun_induction Quoted.read mark cs generalizing read with
  | case1 | case2 | case3 => cases h
  | case4 | case5 | case7 | case8 =>
      cases h
      exact ⟨_, rfl, rfl⟩
  | case6 _ _ _ _ _ _ _ _ _ _ ih | case9 _ _ _ _ _ _ _ ih | case10 _ _ _ _ ih =>
      obtain ⟨found, hfound, rfl⟩ := extend_eq_escape h
      obtain ⟨rest, rfl, hlast⟩ := ih hfound
      exact ⟨rest, by simp, by rw [List.getLast?_append, hlast]; rfl⟩

end Text.Quoted

namespace Lexer

theorem string_eq_error {mark : Char} {cs : List Char} {stop : Stop}
    (h : string mark cs = .error stop) :
    stop.read = [] ∨ ∃ rest, mark :: cs = stop.read ++ rest ∧ stop.read.getLast? = some '\\' := by
  unfold string at h
  split at h
  · cases h
  · cases h
    exact .inl rfl
  · next read flaw hread =>
      cases h
      obtain ⟨rest, rfl, hlast⟩ := Text.Quoted.read_eq_escape hread
      exact .inr ⟨rest, rfl, by rw [List.getLast?_cons, hlast]; rfl⟩

/-- A piece that cannot be read is reported at its first character or behind a backslash. -/
theorem piece_eq_error {c : Char} {cs : List Char} {stop : Stop}
    (h : piece c cs = .error stop) :
    stop.read = [] ∨ ∃ rest, c :: cs = stop.read ++ rest ∧ stop.read.getLast? = some '\\' := by
  unfold piece at h
  split at h
  · cases h
  split at h
  · cases h
  split at h
  · exact string_eq_error h
  · unfold symbol single at h
    repeat' split at h
    all_goals cases h
    all_goals exact .inl rfl

theorem tokensFrom_eq_error {position : Position} {cs : List Char} {fault : Fault}
    (h : tokensFrom position cs = .error fault) :
    ∃ pre post, cs = pre ++ post ∧ fault.position = position.after pre ∧
      (post.head? ≠ some '\n' ∨ pre.getLast? = some '\\') := by
  fun_induction tokensFrom position cs with
  | case1 => cases h
  | case2 position cs start c rest hrest stop hpiece =>
      cases h
      have hcs : cs = (gap cs).1 ++ (c :: rest) := by rw [← hrest, gap_append]
      rcases piece_eq_error hpiece with hread | ⟨post, hread, hlast⟩
      · refine ⟨(gap cs).1, c :: rest, hcs, by rw [hread]; rfl, .inl ?_⟩
        have hblank := not_blank_gap cs c (by rw [hrest]; rfl)
        rintro ⟨⟩
        exact absurd hblank (by decide)
      · refine ⟨(gap cs).1 ++ stop.read, post, ?_, (Position.after_append _ _ _).symm, .inr ?_⟩
        · rw [List.append_assoc, ← hread]
          exact hcs
        · rw [List.getLast?_append, hlast]
          rfl
  | case3 position cs start c rest hrest p hpiece fault' htokens =>
      rename_i ih
      cases h
      obtain ⟨pre, post, hpre, hplace, hplaced⟩ := ih htokens
      obtain ⟨tail, hraw, htail⟩ := piece_append hpiece
      have hcs : cs = (gap cs).1 ++ (p.raw ++ p.rest) := by
        rw [hraw, List.cons_append, htail, ← hrest, gap_append]
      refine ⟨(gap cs).1 ++ (p.raw ++ pre), post, ?_, ?_, ?_⟩
      · rw [List.append_assoc, List.append_assoc, ← hpre]
        exact hcs
      · rw [hplace, Position.after_append, Position.after_append]
      · refine hplaced.imp_right fun hlast => ?_
        rw [List.getLast?_append, List.getLast?_append, hlast]
        rfl
  | case4 => cases h

section Texts

variable {source : String}

theorem tokenize_eq_error {fault : Fault} (h : tokenize source = .error fault) :
    fault.position.Marks source.toList := by
  obtain ⟨pre, post, hsource, hplace, hplaced⟩ := tokensFrom_eq_error h
  refine ⟨pre, post, hsource, hplace, ?_⟩
  rintro ⟨hlast, hhead⟩
  rcases hplaced with hne | hbackslash
  · exact hne hhead
  · rw [hlast] at hbackslash
    cases hbackslash

theorem CutFrom.marks {cs : List Char} {token : Token} (h : CutFrom .start cs token) :
    token.position.Marks cs := by
  obtain ⟨pre, c, rest, p, rfl, hblank, -, rfl⟩ := h
  refine ⟨pre, c :: rest, rfl, rfl, ?_⟩
  rintro ⟨-, ⟨⟩⟩
  exact absurd hblank (by decide)

theorem tokenize_marks {all : List Token} (h : tokenize source = .ok all) :
    all ≠ [] ∧ ∀ token ∈ all, token.position.Marks source.toList := by
  obtain ⟨tokens, rfl, htokens⟩ := tokensFrom_eq_ok h
  refine ⟨by simp, fun token htoken => ?_⟩
  rcases List.mem_append.1 htoken with htoken | htoken
  · exact (htokens token htoken).marks
  · obtain rfl := List.mem_singleton.1 htoken
    exact ⟨source.toList, [], (List.append_nil _).symm, rfl, by simp⟩

end Texts

end Lexer

namespace Expr

mutual

/-- All nodes of the expression stand at places as in `W`. -/
def Within (W : Position → Prop) : Expr → Prop
  | .literal pos _ | .ref pos _ => W pos
  | .binary pos _ left right | .index pos left right =>
      W pos ∧ left.Within W ∧ right.Within W
  | .unary pos _ operand | .member pos operand _ => W pos ∧ operand.Within W
  | .apply pos _ items | .list pos items => W pos ∧ WithinItems W items
  | .tool pos _ entries | .object pos entries => W pos ∧ WithinEntries W entries
termination_by structural e => e

/-- All nodes of the expressions stand at places as in `W`. -/
def WithinItems (W : Position → Prop) : List Expr → Prop
  | [] => True
  | e :: rest => e.Within W ∧ WithinItems W rest
termination_by structural items => items

/-- All nodes of the named expressions stand at places as in `W`. -/
def WithinEntries (W : Position → Prop) : List (String × Expr) → Prop
  | [] => True
  | (_, e) :: rest => e.Within W ∧ WithinEntries W rest
termination_by structural entries => entries

end

variable {W : Position → Prop}

theorem Within.position {e : Expr} (h : e.Within W) : W e.position := by
  cases e with
  | literal | ref => exact h
  | binary | unary | apply | tool | list | object | index | member => exact h.1

theorem WithinItems.concat {items : List Expr} {e : Expr} (h : WithinItems W items)
    (he : e.Within W) : WithinItems W (items ++ [e]) := by
  induction items with
  | nil => exact ⟨he, trivial⟩
  | cons first rest ih => exact ⟨h.1, ih h.2⟩

theorem withinEntries_iff (entries : List (String × Expr)) :
    WithinEntries W entries ↔ ∀ entry ∈ entries, entry.2.Within W := by
  induction entries with
  | nil => simp [WithinEntries]
  | cons entry rest ih => simp [WithinEntries, ih]

theorem WithinEntries.insert {entries : Dict Expr} {e : Expr} (h : WithinEntries W entries)
    (he : e.Within W) (name : String) : WithinEntries W (Dict.insert entries name e) := by
  rw [withinEntries_iff] at h ⊢
  intro entry hentry
  rcases Dict.mem_insert hentry with hentry | rfl
  · exact h entry hentry
  · exact he

end Expr

namespace Stmt

mutual

/-- All nodes of the statement stand at places as in `W`. -/
def Within (W : Position → Prop) : Stmt → Prop
  | .bind _ _ e | .expr _ e => e.Within W
  | .call pos _ args => W pos ∧ Expr.WithinEntries W args
  | .branch _ condition yes none => condition.Within W ∧ WithinBlock W yes
  | .branch _ condition yes (some no) =>
      condition.Within W ∧ WithinBlock W yes ∧ WithinBlock W no
  | .each _ _ items body => items.Within W ∧ WithinBlock W body
termination_by structural stmt => stmt

/-- All nodes of the statements stand at places as in `W`. -/
def WithinBlock (W : Position → Prop) : List Stmt → Prop
  | [] => True
  | stmt :: rest => stmt.Within W ∧ WithinBlock W rest
termination_by structural stmts => stmts

end

theorem WithinBlock.concat {W : Position → Prop} {stmts : List Stmt} {stmt : Stmt}
    (h : WithinBlock W stmts) (hstmt : stmt.Within W) : WithinBlock W (stmts ++ [stmt]) := by
  induction stmts with
  | nil => exact ⟨hstmt, trivial⟩
  | cons first rest ih => exact ⟨h.1, ih h.2⟩

end Stmt

end ToolScript
