import ToolScript.Proofs.Grammar.Outline
import ToolScript.Proofs.Grammar.Soundness

/-!
# Whatever is read as statements has an outline

When a reader of statements succeeds, the tokens it took have an outline that fits into the
room. A reader of blocks stops at a word that ends the block, and the reader of scripts at
the end of input.
-/

namespace ToolScript.Grammar

open Reader

/-- The tokens have an outline that fits into the room, and nothing in `rest` goes on with
the statement. -/
def Outlined (room : Nat) (ts rest : List Token) (stmt : Stmt) : Prop :=
  ∃ o : Outline (.statement stmt) ts, o.room ≤ room ∧
    (stmt.endsInExpression = true → Stops levels ts rest)

variable {room : Nat} {inner : Reader Expr} {reader : Reader Stmt} {s t : Stream}

/-- What the rounds that read statements can do: stop where `End` holds, or read one more. -/
def StatementRounds (reader : Reader Stmt) (End : Token.Kind → Prop)
    (round : List Stmt → Reader (List Stmt × Bool)) : Prop :=
  ∀ stmts after again s t, s.Closed → round stmts s = .ok ((after, again), t) →
    (again = false ∧ after = stmts ∧ t = s ∧ End (firstKind s.ahead)) ∨
    (again = true ∧ ∃ stmt, after = stmts ++ [stmt] ∧ reader s = .ok (stmt, t))

theorem follow_eq_ok {stmts after : List Stmt} {again : Bool}
    (h : follow reader stmts s = .ok ((after, again), t)) :
    again = true ∧ ∃ stmt, after = stmts ++ [stmt] ∧ reader s = .ok (stmt, t) := by
  obtain ⟨stmt, s', hread, hpure⟩ := bind_eq_ok_iff.1 h
  obtain ⟨heq, rfl⟩ := pure_eq_ok_iff.1 hpure
  cases heq
  exact ⟨rfl, stmt, rfl, hread⟩

theorem statementRounds_block (reader : Reader Stmt) (kind : Block) :
    StatementRounds reader (fun k => ∃ word ∈ kind.closers, k = .keyword word)
      (blockRound reader kind) := by
  intro stmts after again s t hs h
  obtain ⟨k, s', hpeek, hround⟩ := bind_eq_ok_iff.1 h
  obtain ⟨hfirst, rfl⟩ := peekKind_eq_ok hs hpeek
  split at hround
  · next word =>
      split at hround
      · next hword =>
          obtain ⟨heq, rfl⟩ := pure_eq_ok_iff.1 hround
          cases heq
          exact .inl ⟨rfl, rfl, rfl, word, hword, hfirst.symm⟩
      · exact .inr (follow_eq_ok hround)
  · cases hround
  · exact .inr (follow_eq_ok hround)

theorem statementRounds_script :
    StatementRounds (statement maxNesting) (fun k => k = .endOfInput) scriptRound := by
  intro stmts after again s t hs h
  obtain ⟨k, s', hpeek, hround⟩ := bind_eq_ok_iff.1 h
  obtain ⟨rfl, rfl⟩ := peekKind_eq_ok hs hpeek
  split at hround
  · next hend =>
      obtain ⟨heq, rfl⟩ := pure_eq_ok_iff.1 hround
      cases heq
      exact .inl ⟨rfl, rfl, rfl, hend⟩
  · exact .inr (follow_eq_ok hround)

/-- A statement that stops before everything that follows stops before the next statements. -/
theorem Stops.of_append {level : Nat} {ts us rest : List Token}
    (h : Stops level ts (us ++ rest)) : Stops level ts us := by
  cases us with
  | nil => exact .of_ends rfl
  | cons u us => exact ⟨h.bracket, h.dot, h.operator, h.call⟩

theorem statement_rounds {End : Token.Kind → Prop} {round : List Stmt → Reader (List Stmt × Bool)}
    (hround : StatementRounds reader End round) (hreader : Sound reader (Outlined room))
    {stmts all : List Stmt} (hs : s.Closed) (h : loop round stmts s = .ok (all, t)) :
    ∃ ts ss, s.Taken ts t ∧ all = stmts ++ ss ∧ End (firstKind t.ahead) ∧
      ∃ o : Outline (.statements ss) ts, o.room ≤ room := by
  refine loop_induction (P := fun s stmts all t => ∃ ts ss, s.Taken ts t ∧ all = stmts ++ ss ∧
    End (firstKind t.ahead) ∧ ∃ o : Outline (.statements ss) ts, o.room ≤ room) ?_ ?_ hs h
  · intro s stmts after t hs hlast
    rcases hround _ _ _ _ _ hs hlast with ⟨_, rfl, rfl, hend⟩ | ⟨hagain, _⟩
    · exact ⟨[], [], .refl _, by simp, hend, .none, Nat.zero_le room⟩
    · cases hagain
  · intro s stmts after t hs hmore
    rcases hround _ _ _ _ _ hs hmore with ⟨hagain, _⟩ | ⟨_, stmt, rfl, hread⟩
    · cases hagain
    · obtain ⟨ts, hts, o, ho, hstops⟩ := hreader _ _ _ hs hread
      refine ⟨⟨ts, ne_nil_of_begins o.begins_first, hts⟩, ?_⟩
      rintro all u ⟨us, ss, hus, rfl, hend, o', ho'⟩
      have hnext (hexpr : stmt.endsInExpression = true) : Stops levels ts us := by
        have hstop := hstops hexpr
        rw [hus.ahead] at hstop
        exact hstop.of_append
      exact ⟨ts ++ us, stmt :: ss, hts.trans hus, by simp, hend, .cons o o' hnext,
        Nat.max_le.2 ⟨ho, ho'⟩⟩

/-- The tokens have an outline of statements that fits into the room of a block, and a word
that ends the block follows. -/
def OutlinedBlock (room : Nat) (kind : Block) (ts rest : List Token) (stmts : List Stmt) : Prop :=
  ∃ o : Outline (.statements stmts) ts, o.room < room ∧
    ∃ word ∈ kind.closers, firstKind rest = .keyword word

theorem sound_block (hreader : Sound reader (Outlined room)) (kind : Block) :
    Sound (block reader kind) (OutlinedBlock (room + 1) kind) := by
  intro s t stmts hs h
  obtain ⟨ts, ss, hts, rfl, hend, o, ho⟩ :=
    statement_rounds (statementRounds_block reader kind) hreader hs h
  exact ⟨ts, hts, o, Nat.lt_succ_of_le ho, hend⟩

section Words

variable {blocks : Block → Reader (List Stmt)} {stmt : Stmt}

/-- A keyword that begins the statement is taken first. -/
theorem word_eq_ok {word : Keyword} {token : Token}
    (hword : firstKind s.ahead = .keyword word) (h : advance s = .ok (token, t)) :
    s.Taken [token] t ∧ token.IsWord word := by
  obtain ⟨htoken, hkind⟩ := advance_eq_ok (by rw [hword]; simp) h
  exact ⟨htoken, hkind.trans hword⟩

theorem bind_statement_eq_ok (hinner : Sound inner (Inside room)) (hs : s.Closed)
    (hword : firstKind s.ahead = .keyword .kwLet)
    (h : statementWith inner blocks s = .ok (stmt, t)) :
    ∃ ts, s.Taken ts t ∧ Outlined room ts t.ahead stmt := by
  obtain ⟨kind, s', hpeek, h⟩ := bind_eq_ok_iff.1 h
  obtain ⟨rfl, rfl⟩ := peekKind_eq_ok hs hpeek
  simp only [hword] at h
  obtain ⟨token, s₁, hread, h⟩ := bind_eq_ok_iff.1 h
  obtain ⟨htoken, htokenKind⟩ := word_eq_ok hword hread
  have hs₁ := htoken.closed hs
  obtain ⟨name, s₂, hread, h⟩ := bind_eq_ok_iff.1 h
  obtain ⟨name, hname, hnameKind, rfl⟩ := expectName_eq_ok hs₁ hread
  have hs₂ := hname.closed hs₁
  obtain ⟨equals, s₃, hread, h⟩ := bind_eq_ok_iff.1 h
  obtain ⟨hequals, hequalsKind⟩ := expectSymbol_eq_ok hs₂ hread
  have hs₃ := hequals.closed hs₂
  obtain ⟨e, s₄, hread, hpure⟩ := bind_eq_ok_iff.1 h
  obtain ⟨ts, hts, d, hd, hstops⟩ := hinner _ _ _ hs₃ hread
  obtain ⟨rfl, rfl⟩ := pure_eq_ok_iff.1 hpure
  have hends : endsInName (token :: name :: equals :: ts) = endsInName ts := by
    apply endsInName_append [token, name] (ne_nil_of_opens (d.opens_first rfl))
    rw [hequalsKind]
    decide
  exact ⟨token :: name :: equals :: ts, htoken.trans (hname.trans (hequals.trans hts)),
    .bind htokenKind hnameKind hequalsKind d, hd, fun _ => hstops.congr hends⟩

theorem call_statement_eq_ok (hinner : Sound inner (Inside room)) (hs : s.Closed)
    (hword : firstKind s.ahead = .keyword .kwCall)
    (h : statementWith inner blocks s = .ok (stmt, t)) :
    ∃ ts, s.Taken ts t ∧ Outlined room ts t.ahead stmt := by
  obtain ⟨kind, s', hpeek, h⟩ := bind_eq_ok_iff.1 h
  obtain ⟨rfl, rfl⟩ := peekKind_eq_ok hs hpeek
  simp only [hword] at h
  obtain ⟨token, s₁, hread, h⟩ := bind_eq_ok_iff.1 h
  obtain ⟨htoken, htokenKind⟩ := word_eq_ok hword hread
  obtain ⟨⟨tool, args⟩, s₂, hread, hpure⟩ := bind_eq_ok_iff.1 h
  obtain ⟨name, lead, ts, close, es, htaken, hname, hlead, hclose, rfl, rfl, d, hd⟩ :=
    invocation_eq_ok hinner (htoken.closed hs) hread
  obtain ⟨rfl, rfl⟩ := pure_eq_ok_iff.1 hpure
  exact ⟨token :: name :: lead :: (ts ++ [close]), htoken.trans htaken,
    .call htokenKind hname hlead d hclose, hd, fun hexpr => by cases hexpr⟩

theorem branch_statement_eq_ok (hinner : Sound inner (Inside room))
    (hblocks : ∀ kind, Sound (blocks kind) (OutlinedBlock room kind)) (hs : s.Closed)
    (hword : firstKind s.ahead = .keyword .kwIf)
    (h : statementWith inner blocks s = .ok (stmt, t)) :
    ∃ ts, s.Taken ts t ∧ Outlined room ts t.ahead stmt := by
  obtain ⟨kind, s', hpeek, h⟩ := bind_eq_ok_iff.1 h
  obtain ⟨rfl, rfl⟩ := peekKind_eq_ok hs hpeek
  simp only [hword] at h
  obtain ⟨token, s₁, hread, h⟩ := bind_eq_ok_iff.1 h
  obtain ⟨htoken, htokenKind⟩ := word_eq_ok hword hread
  have hs₁ := htoken.closed hs
  obtain ⟨e, s₂, hread, h⟩ := bind_eq_ok_iff.1 h
  obtain ⟨ts, hts, d, hd, -⟩ := hinner _ _ _ hs₁ hread
  have hs₂ := hts.closed hs₁
  obtain ⟨then_, s₃, hread, h⟩ := bind_eq_ok_iff.1 h
  obtain ⟨hthen, hthenKind⟩ := expectKeyword_eq_ok hs₂ hread
  have hs₃ := hthen.closed hs₂
  obtain ⟨yes, s₄, hread, h⟩ := bind_eq_ok_iff.1 h
  obtain ⟨us, hus, o, ho, -⟩ := hblocks .yes _ _ _ hs₃ hread
  have hs₄ := hus.closed hs₃
  have htaken := htoken.trans (hts.trans (hthen.trans hus))
  obtain ⟨found, s₅, haccept, hrest⟩ := bind_eq_ok_iff.1 h
  rcases accept_eq_ok hs₄ (by simp) haccept with ⟨rfl, else_, helse, helseKind⟩ | ⟨rfl, rfl, _⟩
  · have hs₅ := helse.closed hs₄
    obtain ⟨no?, s₆, hread, hrest⟩ := bind_eq_ok_iff.1 hrest
    obtain ⟨no, hblock, rfl⟩ := map_eq_ok_iff.1 hread
    obtain ⟨vs, hvs, o', ho', -⟩ := hblocks .no _ _ _ hs₅ hblock
    have hs₆ := hvs.closed hs₅
    obtain ⟨close, s₇, hread, hpure⟩ := bind_eq_ok_iff.1 hrest
    obtain ⟨hclose, hcloseKind⟩ := expectKeyword_eq_ok hs₆ hread
    obtain ⟨rfl, rfl⟩ := pure_eq_ok_iff.1 hpure
    refine ⟨token :: (ts ++ then_ :: (us ++ else_ :: (vs ++ [close]))), ?_,
      .branches htokenKind d hthenKind o helseKind o' hcloseKind, ?_, fun hexpr => by cases hexpr⟩
    · have hall := htaken.trans (helse.trans (hvs.trans hclose))
      simpa only [List.cons_append, List.nil_append, List.append_assoc] using hall
    · simp only [Outline.room]
      omega
  · obtain ⟨no?, s₆, hnone, hend⟩ := bind_eq_ok_iff.1 hrest
    obtain ⟨rfl, rfl⟩ := pure_eq_ok_iff.1 hnone
    obtain ⟨close, s₇, hread, hpure⟩ := bind_eq_ok_iff.1 hend
    obtain ⟨hclose, hcloseKind⟩ := expectKeyword_eq_ok hs₄ hread
    obtain ⟨rfl, rfl⟩ := pure_eq_ok_iff.1 hpure
    refine ⟨token :: (ts ++ then_ :: (us ++ [close])), ?_,
      .branch htokenKind d hthenKind o hcloseKind, ?_, fun hexpr => by cases hexpr⟩
    · simpa only [List.cons_append, List.nil_append, List.append_assoc] using
        htaken.trans hclose
    · simp only [Outline.room]
      omega

theorem each_statement_eq_ok (hinner : Sound inner (Inside room))
    (hblocks : ∀ kind, Sound (blocks kind) (OutlinedBlock room kind)) (hs : s.Closed)
    (hword : firstKind s.ahead = .keyword .kwFor)
    (h : statementWith inner blocks s = .ok (stmt, t)) :
    ∃ ts, s.Taken ts t ∧ Outlined room ts t.ahead stmt := by
  obtain ⟨kind, s', hpeek, h⟩ := bind_eq_ok_iff.1 h
  obtain ⟨rfl, rfl⟩ := peekKind_eq_ok hs hpeek
  simp only [hword] at h
  obtain ⟨token, s₁, hread, h⟩ := bind_eq_ok_iff.1 h
  obtain ⟨htoken, htokenKind⟩ := word_eq_ok hword hread
  have hs₁ := htoken.closed hs
  obtain ⟨name, s₂, hread, h⟩ := bind_eq_ok_iff.1 h
  obtain ⟨name, hname, hnameKind, rfl⟩ := expectName_eq_ok hs₁ hread
  have hs₂ := hname.closed hs₁
  obtain ⟨in_, s₃, hread, h⟩ := bind_eq_ok_iff.1 h
  obtain ⟨hin, hinKind⟩ := expectKeyword_eq_ok hs₂ hread
  have hs₃ := hin.closed hs₂
  obtain ⟨e, s₄, hread, h⟩ := bind_eq_ok_iff.1 h
  obtain ⟨ts, hts, d, hd, -⟩ := hinner _ _ _ hs₃ hread
  have hs₄ := hts.closed hs₃
  obtain ⟨do_, s₅, hread, h⟩ := bind_eq_ok_iff.1 h
  obtain ⟨hdo, hdoKind⟩ := expectKeyword_eq_ok hs₄ hread
  have hs₅ := hdo.closed hs₄
  obtain ⟨body, s₆, hread, h⟩ := bind_eq_ok_iff.1 h
  obtain ⟨us, hus, o, ho, -⟩ := hblocks .body _ _ _ hs₅ hread
  have hs₆ := hus.closed hs₅
  obtain ⟨close, s₇, hread, hpure⟩ := bind_eq_ok_iff.1 h
  obtain ⟨hclose, hcloseKind⟩ := expectKeyword_eq_ok hs₆ hread
  obtain ⟨rfl, rfl⟩ := pure_eq_ok_iff.1 hpure
  refine ⟨token :: name :: in_ :: (ts ++ do_ :: (us ++ [close])), ?_,
    .each htokenKind hnameKind hinKind d hdoKind o hcloseKind, ?_, fun hexpr => by cases hexpr⟩
  · exact htoken.trans (hname.trans (hin.trans (hts.trans (hdo.trans (hus.trans hclose)))))
  · simp only [Outline.room]
    omega

theorem expr_statement_eq_ok (hinner : Sound inner (Inside room)) (hs : s.Closed)
    (hword : firstKind s.ahead ≠ .keyword .kwCall)
    (h : (inner >>= fun e => pure (.expr e.position e) : Reader Stmt) s = .ok (stmt, t)) :
    ∃ ts, s.Taken ts t ∧ Outlined room ts t.ahead stmt := by
  obtain ⟨e, s', hread, hpure⟩ := bind_eq_ok_iff.1 h
  obtain ⟨ts, hts, d, hd, hstops⟩ := hinner _ _ _ hs hread
  obtain ⟨rfl, rfl⟩ := pure_eq_ok_iff.1 hpure
  rw [hts.ahead, firstKind_append (ne_nil_of_opens (d.opens_first rfl))] at hword
  exact ⟨ts, hts, .expr d hword, hd, fun _ => hstops⟩

end Words

theorem sound_statementWith {blocks : Block → Reader (List Stmt)}
    (hinner : Sound inner (Inside room))
    (hblocks : ∀ kind, Sound (blocks kind) (OutlinedBlock room kind)) :
    Sound (statementWith inner blocks) (Outlined room) := by
  intro s t stmt hs h
  by_cases hlet : firstKind s.ahead = .keyword .kwLet
  · exact bind_statement_eq_ok hinner hs hlet h
  by_cases hcall : firstKind s.ahead = .keyword .kwCall
  · exact call_statement_eq_ok hinner hs hcall h
  by_cases hif : firstKind s.ahead = .keyword .kwIf
  · exact branch_statement_eq_ok hinner hblocks hs hif h
  by_cases hfor : firstKind s.ahead = .keyword .kwFor
  · exact each_statement_eq_ok hinner hblocks hs hfor h
  obtain ⟨kind, s', hpeek, hrest⟩ := bind_eq_ok_iff.1 h
  obtain ⟨hkind, rfl⟩ := peekKind_eq_ok hs hpeek
  split at hrest
  · exact absurd hkind.symm hlet
  · exact absurd hkind.symm hcall
  · exact absurd hkind.symm hif
  · exact absurd hkind.symm hfor
  · exact expr_statement_eq_ok hinner hs hcall hrest

/-- Whatever a reader of statements gives has an outline that fits into the room. -/
theorem sound_statement (room : Nat) : Sound (statement room) (Outlined room) := by
  induction room with
  | zero => exact sound_statementWith (sound_expression 0) fun _ => sound_tooDeep _
  | succ room ih => exact sound_statementWith (sound_expression (room + 1)) (sound_block ih)

/-- Whatever is read as a script has an outline that goes up to the end of input. -/
theorem sound_statements :
    Sound statements fun ts rest stmts => firstKind rest = .endOfInput ∧
      ∃ o : Outline (.statements stmts) ts, o.room ≤ maxNesting := by
  intro s t stmts hs h
  obtain ⟨ts, ss, hts, rfl, hend, o, ho⟩ :=
    statement_rounds statementRounds_script (sound_statement maxNesting) hs h
  exact ⟨ts, hts, hend, o, ho⟩

end ToolScript.Grammar
