import ToolScript.Proofs.Grammar.Completeness

/-!
# The grammar of statements

An outline shows how a row of tokens spells a statement, or statements one after the other.
Statements have nothing between them, so each takes all the tokens that go on with it: where
a statement ends in an expression, what follows must not continue that expression.

As with expressions, the room that reading an outline takes is computed from it. A block
asks for one unit more than its statements.
-/

namespace ToolScript

/-- Whether the last part of a statement is an expression. -/
def Stmt.endsInExpression : Stmt → Bool
  | .bind _ _ _ | .expr _ _ => true
  | _ => false

namespace Grammar

/-- What a row of tokens can spell besides expressions. -/
inductive Passage where
  | statement (stmt : Stmt)
  | statements (stmts : List Stmt)

/-- A derivation of a passage from the tokens that spell it. -/
inductive Outline : Passage → List Token → Type
  | bind {t n u e ts} (ht : t.IsWord .kwLet) (hn : n.IsName) (hu : u.Is .assign)
      (d : Derivation (.chain levels e) ts) :
      Outline (.statement (.bind t.position n.lexeme e)) (t :: n :: u :: ts)
  | call {t f u v es ts} (ht : t.IsWord .kwCall) (hf : f.IsName) (hu : u.Is .leftBrace)
      (d : Derivation (.entries false es) ts) (hv : v.Is .rightBrace) :
      Outline (.statement (.call t.position f.lexeme (merged es)))
        (t :: f :: u :: (ts ++ [v]))
  | branch {t u w e yes ts us} (ht : t.IsWord .kwIf) (d : Derivation (.chain levels e) ts)
      (hu : u.IsWord .kwThen) (o : Outline (.statements yes) us) (hw : w.IsWord .kwEnd) :
      Outline (.statement (.branch t.position e yes none)) (t :: (ts ++ u :: (us ++ [w])))
  | branches {t u v w e yes no ts us vs} (ht : t.IsWord .kwIf)
      (d : Derivation (.chain levels e) ts) (hu : u.IsWord .kwThen)
      (o : Outline (.statements yes) us) (hv : v.IsWord .kwElse)
      (o' : Outline (.statements no) vs) (hw : w.IsWord .kwEnd) :
      Outline (.statement (.branch t.position e yes (some no)))
        (t :: (ts ++ u :: (us ++ v :: (vs ++ [w]))))
  | each {t n u v w e body ts us} (ht : t.IsWord .kwFor) (hn : n.IsName) (hu : u.IsWord .kwIn)
      (d : Derivation (.chain levels e) ts) (hv : v.IsWord .kwDo)
      (o : Outline (.statements body) us) (hw : w.IsWord .kwEnd) :
      Outline (.statement (.each t.position n.lexeme e body))
        (t :: n :: u :: (ts ++ v :: (us ++ [w])))
  | expr {e ts} (d : Derivation (.chain levels e) ts)
      (hts : firstKind ts ≠ .keyword .kwCall) :
      Outline (.statement (.expr e.position e)) ts
  | none : Outline (.statements []) []
  | cons {s ss ts us} (o : Outline (.statement s) ts) (o' : Outline (.statements ss) us)
      (hus : s.endsInExpression = true → Stops levels ts us) :
      Outline (.statements (s :: ss)) (ts ++ us)

/-- The room that reading an outline takes. -/
def Outline.room {p : Passage} {ts : List Token} : Outline p ts → Nat
  | .bind _ _ _ d | .expr d _ => d.room + 1
  | .call _ _ _ d _ => d.room
  | .branch _ d _ o _ | .each _ _ _ d _ o _ => max d.room o.room + 1
  | .branches _ d _ o _ o' _ => max d.room (max o.room o'.room) + 1
  | .none => 0
  | .cons o o' _ => max o.room o'.room

/-- The kinds of tokens that a statement can begin with. -/
def begins (kind : Token.Kind) : Bool :=
  kind ∈ [.keyword .kwLet, .keyword .kwIf, .keyword .kwFor] || opens kind

theorem Outline.begins_first {s : Stmt} {ts : List Token} (o : Outline (.statement s) ts) :
    begins (firstKind ts) = true := by
  cases o with
  | bind ht | call ht | branch ht | branches ht | each ht =>
      rw [firstKind_cons, ht]
      rfl
  | expr d =>
      simp only [begins, d.opens_first rfl, Bool.or_true]

theorem ne_nil_of_begins {ts : List Token} (h : begins (firstKind ts) = true) : ts ≠ [] := by
  rintro rfl
  exact absurd h (by decide)

open Reader

/-- Reads a block inside a statement. -/
def innerBlock : Nat → Block → Reader (List Stmt)
  | 0, _ => tooDeep
  | room + 1, kind => block (statement room) kind

theorem statement_eq (room : Nat) :
    statement room = statementWith (expression room) (innerBlock room) := by
  cases room <;> rfl

/-- The rounds that read statements in the given room, up to the end before `rest`. -/
structure Rounds (room : Nat) (round : List Stmt → Reader (List Stmt × Bool))
    (rest : List Token) : Prop where
  more : ∀ stmts tokens, begins (firstKind tokens) = true →
    Leads True (round stmts) [] tokens (follow (statement room) stmts)
  last : ∀ stmts, Leads True (round stmts) [] rest (pure (stmts, false))
  ends : ends (firstKind rest) = true

/-- The tokens `ts` are read as the passage in any room of at least `n`. -/
def Passage.Reads (ts : List Token) (n : Nat) : Passage → Prop
  | .statement s => ∀ room rest, (s.endsInExpression = true → Stops levels ts rest) →
      Leads (n ≤ room) (Grammar.statement room) ts rest (pure s)
  | .statements ss => ∀ room rest round stmts, Rounds room round rest →
      Leads (n ≤ room) (loop round stmts) ts rest (pure (stmts ++ ss))

theorem not_begins_closer {kind : Block} {word : Keyword} (h : word ∈ kind.closers) :
    begins (.keyword word) = false ∧ ends (.keyword word) = true := by
  cases kind with
  | yes =>
      simp only [Block.closers, List.mem_cons, List.not_mem_nil, or_false] at h
      rcases h with rfl | rfl <;> exact ⟨rfl, rfl⟩
  | no | body =>
      simp only [Block.closers, List.mem_cons, List.not_mem_nil, or_false] at h
      subst h
      exact ⟨rfl, rfl⟩

theorem rounds_block {kind : Block} {word : Keyword} {rest : List Token} (room : Nat)
    (hword : word ∈ kind.closers) (hrest : firstKind rest = .keyword word) :
    Rounds room (blockRound (statement room) kind) rest where
  more := by
    intro stmts tokens hbegins
    apply (leads_peekKind ([] ++ tokens)).look
    rw [List.nil_append]
    split
    · next other heq =>
        have hnot : other ∉ kind.closers := by
          intro hmem
          rw [heq, (not_begins_closer hmem).1] at hbegins
          cases hbegins
        simp only [hnot, if_false]
        exact .refl _ _
    · next heq =>
        rw [heq] at hbegins
        exact absurd hbegins (by decide)
    · exact .refl _ _
  last := by
    intro stmts
    apply (leads_peekKind ([] ++ rest)).look
    simp only [List.nil_append, hrest, hword, if_true]
    exact .refl _ _
  ends := by
    rw [hrest]
    exact (not_begins_closer hword).2

theorem rounds_script : Rounds maxNesting scriptRound [] where
  more := by
    intro stmts tokens hbegins
    have hne : firstKind tokens ≠ .endOfInput := by
      intro heq
      rw [heq] at hbegins
      exact absurd hbegins (by decide)
    apply (leads_peekKind ([] ++ tokens)).look
    simp only [List.nil_append, hne, if_false]
    exact .refl _ _
  last := by
    intro stmts
    apply (leads_peekKind ([] ++ [])).look
    simp only [List.nil_append, firstKind_nil, if_true]
    exact .refl _ _
  ends := rfl

section Rules

variable {m n : Nat} {e : Expr} {t u v w : Token} {ts us vs : List Token}
  {s : Stmt} {ss yes no : List Stmt}

/-- A statement is read as its first token says. -/
theorem leads_statement {p : Prop} {room : Nat} {rest : List Token} {next : Reader Stmt}
    (h : Leads p (statementWith (expression room) (innerBlock room)) ts rest next) :
    Leads p (statement room) ts rest next := by
  rw [statement_eq]
  exact h

theorem leads_innerBlock {kind : Block} {word : Keyword} {rest : List Token} {room : Nat}
    (h : (Passage.statements ss).Reads ts n) (hword : word ∈ kind.closers)
    (hrest : firstKind rest = .keyword word) :
    Leads (n + 1 ≤ room) (innerBlock room kind) ts rest (pure ss) := by
  cases room with
  | zero => exact (leads_tooDeep ts rest _).congr ⟨False.elim, fun hle => absurd hle (by omega)⟩
  | succ room =>
      exact (h room rest _ [] (rounds_block room hword hrest)).congr
        ⟨Nat.succ_le_succ, Nat.le_of_succ_le_succ⟩

theorem stops_word {word : Keyword} (hu : u.IsWord word) (hword : ends (.keyword word) = true)
    (rest : List Token) : Stops levels ts (u :: rest) := by
  apply Stops.of_ends
  rw [firstKind_cons, hu]
  exact hword

theorem reads_bind (ht : t.IsWord .kwLet) (hv : v.IsName) (hu : u.Is .assign)
    (d : Derivation (.chain levels e) ts) :
    (Passage.statement (.bind t.position v.lexeme e)).Reads (t :: v :: u :: ts)
      (d.room + 1) := by
  intro room rest hrest
  have hne := ne_nil_of_opens (d.opens_first rfl)
  have hends : endsInName (t :: v :: u :: ts) = endsInName ts := by
    apply endsInName_append [t, v] hne
    rw [hu]
    decide
  apply leads_statement
  apply (leads_peekKind (t :: v :: u :: ts ++ rest)).look
  simp only [List.cons_append, firstKind_cons, ht]
  refine (leads_advance t _).step ((leads_expectName hv _ _).step ((leads_expect hu _ _).step ?_))
  exact (d.leads_expression room ((hrest rfl).congr hends.symm)).bind_left _

theorem reads_call {es : List (String × Expr)} (ht : t.IsWord .kwCall) (hw : w.IsName)
    (hu : u.Is .leftBrace) (d : Derivation (.entries false es) ts) (hv : v.Is .rightBrace) :
    (Passage.statement (.call t.position w.lexeme (merged es))).Reads
      (t :: w :: u :: (ts ++ [v])) d.room := by
  intro room rest _
  apply leads_statement
  apply (leads_peekKind (t :: w :: u :: (ts ++ [v]) ++ rest)).look
  simp only [List.cons_append, firstKind_cons, ht]
  exact (leads_advance t _).step ((leads_invocation hw hu d.reads hv).bind_left _)

theorem reads_branch (ht : t.IsWord .kwIf) (d : Derivation (.chain levels e) ts)
    (hu : u.IsWord .kwThen) (h : (Passage.statements yes).Reads us m) (hw : w.IsWord .kwEnd) :
    (Passage.statement (.branch t.position e yes none)).Reads (t :: (ts ++ u :: (us ++ [w])))
      (max d.room m + 1) := by
  intro room rest _
  have hcondition : Leads (d.room < room) (expression room) ts (u :: (us ++ [w]) ++ rest) _ :=
    d.leads_expression room (stops_word hu rfl _)
  have hyes : Leads (m + 1 ≤ room) (innerBlock room .yes) us ([w] ++ rest) (pure yes) :=
    leads_innerBlock h (by decide) hw
  have helse : firstKind ([w] ++ rest) ≠ .keyword .kwElse := by
    rw [List.singleton_append, firstKind_cons, hw]
    decide
  apply leads_statement
  apply (leads_peekKind (t :: (ts ++ u :: (us ++ [w])) ++ rest)).look
  simp only [List.cons_append, firstKind_cons, ht]
  refine Leads.congr (p := d.room < room ∧ m + 1 ≤ room ∧ True) ?_
    (by simp only [and_true]; omega)
  refine (leads_advance t _).step (hcondition.bind ((leads_expect hu _ _).step (hyes.bind ?_)))
  apply (leads_accept_not helse).look
  change Leads True (expectKeyword .kwEnd >>= fun _ =>
    pure (Stmt.branch t.position e yes none)) [w] rest _
  exact (leads_expect hw _ ([] ++ rest)).step (.refl _ _)

theorem reads_branches (ht : t.IsWord .kwIf) (d : Derivation (.chain levels e) ts)
    (hu : u.IsWord .kwThen) (h : (Passage.statements yes).Reads us m) (hv : v.IsWord .kwElse)
    (h' : (Passage.statements no).Reads vs n) (hw : w.IsWord .kwEnd) :
    (Passage.statement (.branch t.position e yes (some no))).Reads
      (t :: (ts ++ u :: (us ++ v :: (vs ++ [w])))) (max d.room (max m n) + 1) := by
  intro room rest _
  have hcondition : Leads (d.room < room) (expression room) ts
      (u :: (us ++ v :: (vs ++ [w])) ++ rest) _ :=
    d.leads_expression room (stops_word hu rfl _)
  have hyes : Leads (m + 1 ≤ room) (innerBlock room .yes) us (v :: (vs ++ [w]) ++ rest)
      (pure yes) :=
    leads_innerBlock h (by decide) hv
  have hno : Leads (n + 1 ≤ room) (innerBlock room .no) vs ([w] ++ rest) (pure no) :=
    leads_innerBlock h' (by decide) hw
  apply leads_statement
  apply (leads_peekKind (t :: (ts ++ u :: (us ++ v :: (vs ++ [w]))) ++ rest)).look
  simp only [List.cons_append, firstKind_cons, ht]
  refine Leads.congr (p := d.room < room ∧ m + 1 ≤ room ∧ n + 1 ≤ room ∧ True) ?_
    (by simp only [and_true]; omega)
  refine (leads_advance t _).step (hcondition.bind ((leads_expect hu _ _).step (hyes.bind ?_)))
  refine (leads_accept hv _).step ((hno.map some).bind ?_)
  exact (leads_expect hw _ ([] ++ rest)).step (.refl _ _)

theorem reads_each {i : Token} (ht : t.IsWord .kwFor) (hi : i.IsName) (hu : u.IsWord .kwIn)
    (d : Derivation (.chain levels e) ts) (hv : v.IsWord .kwDo)
    (h : (Passage.statements ss).Reads us m) (hw : w.IsWord .kwEnd) :
    (Passage.statement (.each t.position i.lexeme e ss)).Reads
      (t :: i :: u :: (ts ++ v :: (us ++ [w]))) (max d.room m + 1) := by
  intro room rest _
  have hitems : Leads (d.room < room) (expression room) ts (v :: (us ++ [w]) ++ rest) _ :=
    d.leads_expression room (stops_word hv rfl _)
  have hbody : Leads (m + 1 ≤ room) (innerBlock room .body) us ([w] ++ rest) (pure ss) :=
    leads_innerBlock h (by decide) hw
  apply leads_statement
  apply (leads_peekKind (t :: i :: u :: (ts ++ v :: (us ++ [w])) ++ rest)).look
  simp only [List.cons_append, firstKind_cons, ht]
  refine Leads.congr (p := d.room < room ∧ m + 1 ≤ room ∧ True) ?_
    (by simp only [and_true]; omega)
  refine (leads_advance t _).step ((leads_expectName hi _ _).step ((leads_expect hu _ _).step ?_))
  refine hitems.bind ((leads_expect hv _ _).step (hbody.bind ?_))
  exact (leads_expect hw _ ([] ++ rest)).step (.refl _ _)

theorem reads_expr (d : Derivation (.chain levels e) ts)
    (hts : firstKind ts ≠ .keyword .kwCall) :
    (Passage.statement (.expr e.position e)).Reads ts (d.room + 1) := by
  intro room rest hrest
  have hopens := d.opens_first rfl
  apply leads_statement
  apply (leads_peekKind (ts ++ rest)).look
  rw [firstKind_append (ne_nil_of_opens hopens)]
  split
  · next heq => rw [heq] at hopens; cases hopens
  · next heq => exact absurd heq hts
  · next heq => rw [heq] at hopens; cases hopens
  · next heq => rw [heq] at hopens; cases hopens
  · exact (d.leads_expression room (hrest rfl)).bind_left _

theorem reads_none : (Passage.statements []).Reads [] 0 := by
  intro room rest round stmts hround
  rw [List.append_nil]
  exact (hround.last stmts).loop_last.congr ⟨fun _ => Nat.zero_le room, fun _ => trivial⟩

theorem reads_cons (h : (Passage.statement s).Reads ts m) (hts : begins (firstKind ts) = true)
    (h' : (Passage.statements ss).Reads us n)
    (hus : s.endsInExpression = true → Stops levels ts us) :
    (Passage.statements (s :: ss)).Reads (ts ++ us) (max m n) := by
  intro room rest round stmts hround
  have hstops : s.endsInExpression = true → Stops levels ts (us ++ rest) := by
    intro hs
    cases us with
    | nil => exact .of_ends hround.ends
    | cons u us => exact ⟨(hus hs).bracket, (hus hs).dot, (hus hs).operator, (hus hs).call⟩
  have hfirst : begins (firstKind (ts ++ (us ++ rest))) = true := by
    rw [firstKind_append (ne_nil_of_begins hts)]
    exact hts
  have hstmt : Leads (m ≤ room) (round stmts) ts (us ++ rest) (pure (stmts ++ [s], true)) :=
    (hround.more stmts _ hfirst).after_look ((h room (us ++ rest) hstops).bind_left _)
  have hrest := h' room rest round (stmts ++ [s]) hround
  rw [List.append_assoc, List.singleton_append] at hrest
  exact ((hstmt.loop_more (ne_nil_of_begins hts)).trans hrest).congr (by omega)

end Rules

/-- Tokens are read as the passage that they have an outline of. -/
theorem Outline.reads {p : Passage} {ts : List Token} (o : Outline p ts) :
    p.Reads ts o.room := by
  induction o with
  | bind ht hn hu d => exact reads_bind ht hn hu d
  | call ht hf hu d hv => exact reads_call ht hf hu d hv
  | branch ht d hu o hw ih => exact reads_branch ht d hu ih hw
  | branches ht d hu o hv o' hw ih ih' => exact reads_branches ht d hu ih hv ih' hw
  | each ht hn hu d hv o hw ih => exact reads_each ht hn hu d hv ih hw
  | expr d hts => exact reads_expr d hts
  | none => exact reads_none
  | cons o o' hus ih ih' => exact reads_cons ih o.begins_first ih' hus

end Grammar

end ToolScript
