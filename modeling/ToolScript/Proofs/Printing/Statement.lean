import ToolScript.Proofs.Printing.Boundaries
import ToolScript.Proofs.Printing.Expression

/-!
# Written statements are read back

The text of statements is cut into tokens that have an outline of the joined statements. For
each statement it is recorded how its tokens begin and end, because that decides where the
outline of the next one starts.
-/

namespace ToolScript

open Lexer Grammar

/-- The tokens cannot go on with an expression, except that `paren` says whether they can
begin with a parenthesis. -/
structure Begins (paren : Bool) (tokens : List Token) : Prop where
  bracket : firstKind tokens ≠ .symbol .leftBracket
  dot : firstKind tokens ≠ .symbol .dot
  operator : BinaryOp.ofKind? (firstKind tokens) = none
  paren : firstKind tokens = .symbol .leftParen → paren = true

namespace Begins

variable {paren : Bool} {tokens : List Token}

theorem of_ends (h : ends (firstKind tokens) = true) : Begins paren tokens := by
  obtain ⟨hbracket, hdot, hparen, hop⟩ := ends_iff.1 h
  exact ⟨hbracket, hdot, hop, fun heq => absurd heq hparen⟩

theorem of_word {t : Token} {word : Keyword} {ts : List Token} (ht : t.IsWord word)
    (hword : ends (.keyword word) = true) : Begins paren (t :: ts) := by
  apply of_ends
  rw [firstKind_cons, ht]
  exact hword

theorem append (h : Begins paren tokens) (hne : tokens ≠ []) (us : List Token) :
    Begins paren (tokens ++ us) := by
  have hfirst := firstKind_append hne us
  exact ⟨hfirst ▸ h.bracket, hfirst ▸ h.dot, hfirst ▸ h.operator, hfirst ▸ h.paren⟩

/-- What begins so does not go on with an expression in front of it that cannot be called. -/
theorem stops {ts : List Token} (h : Begins paren tokens)
    (hcall : paren = true → endsInName ts = false) : Stops levels ts tokens where
  bracket := h.bracket
  dot := h.dot
  operator _ _ hop := absurd rfl (hop.ne h.operator)
  call heq := hcall (h.paren heq)

end Begins

/-- The tokens spell the expression as the last part of a statement, whose text they are cut
from. -/
structure Closing (e : Expr) (guard : Bool) (text : String) (tokens : List Token) : Prop where
  tree : ∃ e' : Expr, e'.unplaced = e.unplaced ∧
    ∃ d : Derivation (.chain levels e') tokens, d.room = e.roomAs text
  bracket : firstKind tokens = .symbol .leftBracket → text.toList.head? = some '['
  dot : firstKind tokens ≠ .symbol .dot
  operator : BinaryOp.ofKind? (firstKind tokens) = none
  paren : firstKind tokens = .symbol .leftParen → text.toList.head? = some '('
  call : firstKind tokens ≠ .keyword .kwCall
  name : endsInName tokens = true → guard = false ∧ ∃ pos name, e = .ref pos name

/-- A token that begins an expression and is no operator before an operand is none between
operands either. -/
theorem operator_none {kind : Token.Kind} (h : opens kind = true)
    (hunary : UnaryOp.ofKind? kind = none) :
    BinaryOp.ofKind? kind = none ∧ kind ≠ .symbol .dot := by
  cases kind with
  | identifier | number | string => exact ⟨rfl, by simp⟩
  | keyword word => cases word <;> simp_all [opens, BinaryOp.ofKind?]
  | symbol sign => cases sign <;> simp_all [opens, UnaryOp.ofKind?, BinaryOp.ofKind?]
  | endOfInput => cases h

theorem Reread.closing {e : Expr} {guard : Bool} {tokens : List Token} (h : Reread e tokens)
    (hname : ∀ pos name, e = .ref pos name → guard = false) : Closing e guard e.text tokens := by
  obtain ⟨e', he', d, hd⟩ := h.tree
  obtain ⟨hop, hdot⟩ := operator_none (d.opens_first rfl) (d.unary_none rfl)
  obtain ⟨e'', he'', d', hd'⟩ := h.loosened
  exact {
    tree := ⟨e'', he'', d', hd'.trans e.roomAs_text.symm⟩
    bracket := h.bracket
    dot := hdot
    operator := hop
    paren := h.paren
    call := h.call
    name := fun hends => by
      obtain ⟨pos, name, rfl⟩ := h.name hends
      exact ⟨hname pos name rfl, pos, name, rfl⟩ }

/-- The tokens are parentheses around those of the expression. -/
def RereadGroup (e : Expr) (tokens : List Token) : Prop :=
  ∃ t ts u, tokens = t :: (ts ++ [u]) ∧ t.Is .leftParen ∧ Reread e ts ∧ u.Is .rightParen

theorem RereadGroup.closing {e : Expr} {guard : Bool} {tokens : List Token}
    (h : RereadGroup e tokens) : Closing e guard (parenthesized e.text) tokens := by
  obtain ⟨t, ts, u, rfl, ht, hts, hu⟩ := h
  obtain ⟨e', he', d, hd⟩ := hts.loosened
  obtain ⟨d', hd'⟩ := (Derivation.operand (.primary (.group ht d hu))).loosen
    (Nat.zero_le levels)
  have hroom : d'.room = e.roomAs (parenthesized e.text) := by
    rw [hd', e.roomAs_parenthesized, ← hd]
    rfl
  exact {
    tree := ⟨e', he', d', hroom⟩
    bracket := fun h => by simp [ht] at h
    dot := by simp [ht]
    operator := by simp [ht, BinaryOp.ofKind?]
    paren := fun _ => by simp [parenthesized]
    call := by simp [ht]
    name := fun h => by
      rw [← List.cons_append, endsInName_concat _ (by simp [hu])] at h
      cases h }

theorem cuts_parenthesized {e : Expr} (he : Cuts Apart e.text.toList (Reread e)) :
    Cuts Free (parenthesized e.text).toList (RereadGroup e) := by
  have htext : (parenthesized e.text).toList = ['('] ++ (e.text.toList ++ [')']) := by
    simp [parenthesized]
  have hclose : Cuts Free (e.text.toList ++ [')']) (Both (Reread e) _) :=
    he.parted (cuts_solid .rightParen rfl) rfl
  rw [htext]
  apply ((cuts_solid .leftParen rfl).followed hclose).imp
  rintro _ ⟨_, _, rfl, ⟨t, rfl, ht, -⟩, ts, _, rfl, hts, u, rfl, hu, -⟩
  exact ⟨t, ts, u, rfl, ht, hts, hu⟩

/-- How the expression of a statement is written: as it is, which is allowed with `guard` set
only if it ends with a parenthesis, or in parentheses. -/
def WrittenAs (e : Expr) (guard : Bool) (text : String) : Prop :=
  (text = e.text ∧ (guard = true → e.text.toList.getLast? = some ')')) ∨
    text = parenthesized e.text

theorem guarded_cases (guard : Bool) (text : String) :
    (Stmt.guarded guard text = text ∧ (guard = true → text.toList.getLast? = some ')')) ∨
      Stmt.guarded guard text = parenthesized text := by
  unfold Stmt.guarded
  split
  · exact .inr rfl
  · next h =>
      refine .inl ⟨rfl, fun hguard => ?_⟩
      simpa [hguard] using h

theorem guarded_false (text : String) : Stmt.guarded false text = text :=
  rfl

theorem writtenAs_guarded (e : Expr) (guard : Bool) :
    WrittenAs e guard (Stmt.guarded guard e.text) :=
  guarded_cases guard e.text

theorem guarded_parenthesized (guard : Bool) (text : String) :
    Stmt.guarded guard (parenthesized text) = parenthesized text := by
  have hlast : (parenthesized text).toList.getLast? = some ')' := by
    have htext : (parenthesized text).toList = ('(' :: text.toList) ++ [')'] := by
      simp [parenthesized]
    rw [htext, List.getLast?_concat]
  simp [Stmt.guarded, hlast]

theorem statementText_cases (e : Expr) :
    (e.statementText = e.text ∧ e.text.toList.head? ≠ some '[') ∨
      e.statementText = parenthesized e.text := by
  unfold Expr.statementText
  split
  · exact .inr rfl
  · exact .inr rfl
  · exact .inr rfl
  · next hbracket _ _ =>
      refine .inl ⟨rfl, fun h => ?_⟩
      obtain ⟨cs, hcs⟩ := List.head?_eq_some_iff.1 h
      exact hbracket cs hcs

theorem writtenAs_statement (e : Expr) (guard : Bool) :
    WrittenAs e guard (Stmt.guarded guard e.statementText) := by
  rcases statementText_cases e with ⟨htext, -⟩ | htext
  · rw [htext]
    exact writtenAs_guarded e guard
  · rw [htext, guarded_parenthesized]
    exact .inr rfl

/-- No name ends with a parenthesis. -/
theorem getLast_name {name : String} (h : isWord name = true) :
    name.toList.getLast? ≠ some ')' := by
  intro hlast
  have hmem : ')' ∈ name.toList := List.mem_of_getLast? hlast
  unfold isWord at h
  split at h
  · cases h
  · next c cs hname =>
      obtain ⟨hc, hcs⟩ := Bool.and_eq_true_iff.1 h
      rw [hname] at hmem
      rcases List.mem_cons.1 hmem with rfl | hmem
      · exact absurd hc (by decide)
      · exact absurd (List.all_eq_true.1 hcs _ hmem) (by decide)

theorem cuts_closing {e : Expr} {guard : Bool} {text : String} (h : e.WellFormed)
    (htext : WrittenAs e guard text) : Cuts Apart text.toList (Closing e guard text) := by
  rcases htext with ⟨rfl, hlast⟩ | rfl
  · refine (e.cuts_text h).imp fun tokens htokens => htokens.closing ?_
    rintro pos name rfl
    cases guard with
    | false => rfl
    | true => exact absurd (hlast rfl) (getLast_name h.1)
  · exact ((cuts_parenthesized (e.cuts_text h)).weaken Apart).imp fun _ => RereadGroup.closing

theorem Cuts.indented {P : List Char → Prop} {cs : List Char} {Q : List Token → Prop} (n : Nat)
    (h : Cuts P cs Q) : Cuts P (List.replicate n ' ' ++ cs) Q := by
  induction n with
  | zero => exact h
  | succ n ih => exact ih.space

/-- A text on a line of its own. -/
theorem cuts_line {text : String} {Q : List Token → Prop} (h : Cuts Apart text.toList Q)
    (depth : Nat) : Cuts Free (Stmt.indentation depth ++ text ++ "\n").toList Q := by
  have hline : (Stmt.indentation depth ++ text ++ "\n").toList =
      List.replicate (4 * depth) ' ' ++ (text.toList ++ ['\n']) := by
    simp [Stmt.indentation]
  have hbreak : Cuts Free ['\n'] (· = []) := (Cuts.nil Free (Q := (· = [])) rfl).blank rfl
  rw [hline]
  apply (Cuts.indented _ (h.parted hbreak rfl)).imp
  rintro _ ⟨us, _, rfl, hQ, rfl⟩
  rwa [List.append_nil]

/-- A binding of what the text spells. -/
theorem cuts_let {name text : String} {Q : List Token → Prop} (hname : IsIdentifier name)
    (h : Cuts Apart text.toList Q) :
    Cuts Apart ("LET " ++ name ++ " = " ++ text).toList fun tokens =>
      ∃ t n u ts, tokens = t :: n :: u :: ts ∧ t.IsWord .kwLet ∧ n.IsName ∧ n.lexeme = name ∧
        u.Is .assign ∧ Q ts := by
  have htext : ("LET " ++ name ++ " = " ++ text).toList = Keyword.kwLet.spelling.toList ++
      ' ' :: (name.toList ++ ' ' :: (Symbol.assign.spelling.toList ++ ' ' :: text.toList)) := by
    simp [Keyword.spelling, Symbol.spelling]
  have hvalue : Cuts Apart (Symbol.assign.spelling.toList ++ ' ' :: text.toList) (Both _ Q) :=
    (cuts_symbol .assign).parted h.space rfl
  have hrest : Cuts Apart (name.toList ++ ' ' :: _) (Both _ (Both _ Q)) :=
    (cuts_identifier hname).parted hvalue.space rfl
  rw [htext]
  apply ((cuts_keyword .kwLet).parted hrest.space rfl).imp
  rintro _ ⟨_, _, rfl, ⟨t, rfl, ht, -⟩, _, _, rfl, ⟨n, rfl, hn, hlexeme⟩, _, ts, rfl,
    ⟨u, rfl, hu, -⟩, hts⟩
  exact ⟨t, n, u, ts, rfl, ht, hn, hlexeme, hu, hts⟩

theorem cuts_if {e : Expr} (h : e.WellFormed) :
    Cuts Apart ("IF " ++ e.text ++ " THEN").toList fun tokens =>
      ∃ t ts u, tokens = t :: (ts ++ [u]) ∧ t.IsWord .kwIf ∧ Reread e ts ∧ u.IsWord .kwThen := by
  have htext : ("IF " ++ e.text ++ " THEN").toList = Keyword.kwIf.spelling.toList ++
      ' ' :: (e.text.toList ++ ' ' :: Keyword.kwThen.spelling.toList) := by
    simp [Keyword.spelling]
  have hrest : Cuts Apart (e.text.toList ++ ' ' :: _) (Both (Reread e) _) :=
    (e.cuts_text h).parted (cuts_keyword .kwThen).space rfl
  rw [htext]
  apply ((cuts_keyword .kwIf).parted hrest.space rfl).imp
  rintro _ ⟨_, _, rfl, ⟨t, rfl, ht, -⟩, ts, _, rfl, hts, u, rfl, hu, -⟩
  exact ⟨t, ts, u, rfl, ht, hts, hu⟩

theorem cuts_for {name : String} {e : Expr} (hname : IsIdentifier name) (h : e.WellFormed) :
    Cuts Apart ("FOR " ++ name ++ " IN " ++ e.text ++ " DO").toList fun tokens =>
      ∃ t n u ts v, tokens = t :: n :: u :: (ts ++ [v]) ∧ t.IsWord .kwFor ∧ n.IsName ∧
        n.lexeme = name ∧ u.IsWord .kwIn ∧ Reread e ts ∧ v.IsWord .kwDo := by
  have htext : ("FOR " ++ name ++ " IN " ++ e.text ++ " DO").toList =
      Keyword.kwFor.spelling.toList ++ ' ' :: (name.toList ++ ' ' ::
        (Keyword.kwIn.spelling.toList ++ ' ' ::
          (e.text.toList ++ ' ' :: Keyword.kwDo.spelling.toList))) := by
    simp [Keyword.spelling]
  have hitems : Cuts Apart (e.text.toList ++ ' ' :: _) (Both (Reread e) _) :=
    (e.cuts_text h).parted (cuts_keyword .kwDo).space rfl
  have hin : Cuts Apart (Keyword.kwIn.spelling.toList ++ ' ' :: _) (Both _ (Both _ _)) :=
    (cuts_keyword .kwIn).parted hitems.space rfl
  have hrest : Cuts Apart (name.toList ++ ' ' :: _) (Both _ (Both _ (Both _ _))) :=
    (cuts_identifier hname).parted hin.space rfl
  rw [htext]
  apply ((cuts_keyword .kwFor).parted hrest.space rfl).imp
  rintro _ ⟨_, _, rfl, ⟨t, rfl, ht, -⟩, _, _, rfl, ⟨n, rfl, hn, hlexeme⟩, _, _, rfl,
    ⟨u, rfl, hu, -⟩, ts, _, rfl, hts, v, rfl, hv, -⟩
  exact ⟨t, n, u, ts, v, rfl, ht, hn, hlexeme, hu, hts, hv⟩

/-- The tokens have an outline of the joined statement in the room for its text, and a variable
that could be called stands last only without parentheses. -/
structure Sentence (guard : Bool) (stmt : Stmt) (tokens : List Token) : Prop where
  tree : ∃ stmt' : Stmt, stmt'.unplaced = stmt.joined.unplaced ∧
    ∃ o : Outline (.statement stmt') tokens, o.room = stmt.roomAt guard
  begins : Begins (stmt.beginsWithParen guard) tokens
  name : stmt.endsInExpression = true → endsInName tokens = true →
    stmt.endsInRef = true ∧ guard = false

/-- The tokens have an outline of the joined statements in the room for their text. -/
structure Paragraph (stmts : List Stmt) (tokens : List Token) : Prop where
  tree : ∃ stmts' : List Stmt,
    Stmt.unplacedBlock stmts' = Stmt.unplacedBlock (Stmt.joinedBlock stmts) ∧
      ∃ o : Outline (.statements stmts') tokens, o.room = Stmt.blockRoom stmts
  begins : Begins (Stmt.parenAhead stmts) tokens

variable {depth : Nat} {guard : Bool}

theorem cuts_bind {name : String} {e : Expr} (hname : IsIdentifier name) (he : e.WellFormed)
    (pos : Position) :
    Cuts Free ((Stmt.bind pos name e).textAt depth guard).toList
      (Sentence guard (.bind pos name e)) := by
  have htext : (Stmt.bind pos name e).textAt depth guard = Stmt.indentation depth ++
      ("LET " ++ name ++ " = " ++ Stmt.guarded guard e.text) ++ "\n" := by
    simp [Stmt.textAt, String.append_assoc]
  rw [htext]
  apply (cuts_line (cuts_let hname (cuts_closing he (writtenAs_guarded e guard))) depth).imp
  rintro _ ⟨t, n, u, ts, rfl, ht, hn, rfl, hu, hts⟩
  obtain ⟨e', he', d, hd⟩ := hts.tree
  have hends : endsInName (t :: n :: u :: ts) = endsInName ts := by
    apply endsInName_append [t, n] (ne_nil_of_opens (d.opens_first rfl))
    rw [hu]
    decide
  exact {
    tree := ⟨.bind t.position n.lexeme e', by simp only [Stmt.joined, Stmt.unplaced, he'],
      .bind ht hn hu d, congrArg (· + 1) hd⟩
    begins := .of_word ht rfl
    name := fun _ h => by
      obtain ⟨hguard, place, f, rfl⟩ := hts.name (hends ▸ h)
      exact ⟨rfl, hguard⟩ }

theorem cuts_call {name : String} {args : List (String × Expr)} (hname : IsIdentifier name)
    (hunique : Dict.Unique args) (hkeys : ∀ key ∈ Dict.keys args, IsIdentifier key)
    (hargs : Expr.WellFormedEntries args) (pos : Position) :
    Cuts Free ((Stmt.call pos name args).textAt depth guard).toList
      (Sentence guard (.call pos name args)) := by
  have htext : (Stmt.call pos name args).textAt depth guard = Stmt.indentation depth ++
      ("CALL " ++ name ++ " " ++ argumentBlock (Expr.textEntries id args)) ++ "\n" := by
    simp [Stmt.textAt, String.append_assoc]
  have hcut := Expr.cuts_textEntries args hargs fun key hkey => namesEntry_id (hkeys key hkey)
  rw [htext]
  apply (cuts_line ((cuts_invocation hname hcut).weaken Apart) depth).imp
  rintro _ ⟨c, f, _, rfl, hc, hf, rfl, l, us, r, rfl, hl, ⟨es', hes', d, hd⟩, hr⟩
  have htree : (Stmt.call c.position f.lexeme (merged es')).unplaced =
      (Stmt.call pos f.lexeme args).joined.unplaced := by
    simp only [Stmt.joined, Stmt.unplaced, merged_of_unplaced hunique hes', hes']
  exact {
    tree := ⟨_, htree, .call hc hf hl d hr, hd⟩
    begins := .of_word hc rfl
    name := fun h => by cases h }

theorem cuts_expr {e : Expr} (he : e.WellFormed) (pos : Position) :
    Cuts Free ((Stmt.expr pos e).textAt depth guard).toList
      (Sentence guard (.expr pos e)) := by
  have htext : (Stmt.expr pos e).textAt depth guard = Stmt.indentation depth ++
      Stmt.guarded guard e.statementText ++ "\n" := by
    simp [Stmt.textAt]
  rw [htext]
  apply (cuts_line (cuts_closing he (writtenAs_statement e guard)) depth).imp
  intro ts hts
  obtain ⟨e', he', d, hd⟩ := hts.tree
  have hbracket : firstKind ts ≠ .symbol .leftBracket := by
    intro h
    have hhead := hts.bracket h
    rcases statementText_cases e with ⟨htext, hne⟩ | htext
    · rw [htext] at hhead
      rcases guarded_cases guard e.text with ⟨heq, -⟩ | heq
      · rw [heq] at hhead
        exact hne hhead
      · simp [heq, parenthesized] at hhead
    · rw [htext, guarded_parenthesized] at hhead
      simp [parenthesized] at hhead
  exact {
    tree := ⟨.expr e'.position e', by simp only [Stmt.joined, Stmt.unplaced, he'],
      .expr d hts.call, congrArg (· + 1) hd⟩
    begins := ⟨hbracket, hts.dot, hts.operator, fun h => by
      simp [Stmt.beginsWithParen, hts.paren h]⟩
    name := fun _ h => by
      obtain ⟨hguard, place, f, rfl⟩ := hts.name h
      exact ⟨rfl, hguard⟩ }

section Blocks

variable {yes no body : List Stmt}

theorem cuts_branch {e : Expr} (he : e.WellFormed)
    (hyes : Cuts Free (Stmt.blockText (depth + 1) yes).toList (Paragraph yes))
    (pos : Position) :
    Cuts Free ((Stmt.branch pos e yes none).textAt depth guard).toList
      (Sentence guard (.branch pos e yes none)) := by
  have htext : ((Stmt.branch pos e yes none).textAt depth guard).toList =
      (Stmt.indentation depth ++ ("IF " ++ e.text ++ " THEN") ++ "\n").toList ++
        ((Stmt.blockText (depth + 1) yes).toList ++
          (Stmt.indentation depth ++ Keyword.kwEnd.spelling ++ "\n").toList) := by
    simp [Stmt.textAt, Keyword.spelling]
  rw [htext]
  refine ((cuts_line (cuts_if he) depth).followed (hyes.followed
    (cuts_line (cuts_keyword .kwEnd) depth))).imp ?_
  rintro _ ⟨_, _, rfl, ⟨t, ts, u, rfl, ht, hts, hu⟩, us, _, rfl, hus, w, rfl, hw, -⟩
  obtain ⟨e', he', d, hd⟩ := hts.loosened
  obtain ⟨yes', hyes', o, ho⟩ := hus.tree
  have htokens : t :: (ts ++ [u]) ++ (us ++ [w]) = t :: (ts ++ u :: (us ++ [w])) := by simp
  rw [htokens]
  exact {
    tree := ⟨.branch t.position e' yes' none, by simp only [Stmt.joined, Stmt.unplaced, he', hyes'],
      .branch ht d hu o hw, by simp only [Outline.room, Stmt.roomAt, hd, ho]⟩
    begins := .of_word ht rfl
    name := fun h => by cases h }

theorem cuts_branches {e : Expr} (he : e.WellFormed)
    (hyes : Cuts Free (Stmt.blockText (depth + 1) yes).toList (Paragraph yes))
    (hno : Cuts Free (Stmt.blockText (depth + 1) no).toList (Paragraph no))
    (pos : Position) :
    Cuts Free ((Stmt.branch pos e yes (some no)).textAt depth guard).toList
      (Sentence guard (.branch pos e yes (some no))) := by
  have htext : ((Stmt.branch pos e yes (some no)).textAt depth guard).toList =
      (Stmt.indentation depth ++ ("IF " ++ e.text ++ " THEN") ++ "\n").toList ++
        ((Stmt.blockText (depth + 1) yes).toList ++
          ((Stmt.indentation depth ++ Keyword.kwElse.spelling ++ "\n").toList ++
            ((Stmt.blockText (depth + 1) no).toList ++
              (Stmt.indentation depth ++ Keyword.kwEnd.spelling ++ "\n").toList))) := by
    simp [Stmt.textAt, Keyword.spelling]
  rw [htext]
  refine ((cuts_line (cuts_if he) depth).followed (hyes.followed
    ((cuts_line (cuts_keyword .kwElse) depth).followed (hno.followed
      (cuts_line (cuts_keyword .kwEnd) depth))))).imp ?_
  rintro _ ⟨_, _, rfl, ⟨t, ts, u, rfl, ht, hts, hu⟩, us, _, rfl, hus, _, _, rfl, ⟨v, rfl, hv, -⟩,
    vs, _, rfl, hvs, w, rfl, hw, -⟩
  obtain ⟨e', he', d, hd⟩ := hts.loosened
  obtain ⟨yes', hyes', o, ho⟩ := hus.tree
  obtain ⟨no', hno', o', ho'⟩ := hvs.tree
  have htokens : t :: (ts ++ [u]) ++ (us ++ ([v] ++ (vs ++ [w]))) =
      t :: (ts ++ u :: (us ++ v :: (vs ++ [w]))) := by
    simp
  rw [htokens]
  exact {
    tree := ⟨.branch t.position e' yes' (some no'),
      by simp only [Stmt.joined, Stmt.unplaced, he', hyes', hno'],
      .branches ht d hu o hv o' hw, by simp only [Outline.room, Stmt.roomAt, hd, ho, ho']⟩
    begins := .of_word ht rfl
    name := fun h => by cases h }

theorem cuts_each {name : String} {e : Expr} (hname : IsIdentifier name) (he : e.WellFormed)
    (hbody : Cuts Free (Stmt.blockText (depth + 1) body).toList (Paragraph body))
    (pos : Position) :
    Cuts Free ((Stmt.each pos name e body).textAt depth guard).toList
      (Sentence guard (.each pos name e body)) := by
  have htext : ((Stmt.each pos name e body).textAt depth guard).toList =
      (Stmt.indentation depth ++ ("FOR " ++ name ++ " IN " ++ e.text ++ " DO") ++ "\n").toList ++
        ((Stmt.blockText (depth + 1) body).toList ++
          (Stmt.indentation depth ++ Keyword.kwEnd.spelling ++ "\n").toList) := by
    simp [Stmt.textAt, Keyword.spelling]
  rw [htext]
  refine ((cuts_line (cuts_for hname he) depth).followed (hbody.followed
    (cuts_line (cuts_keyword .kwEnd) depth))).imp ?_
  rintro _ ⟨_, _, rfl, ⟨t, n, u, ts, v, rfl, ht, hn, rfl, hu, hts, hv⟩, us, _, rfl, hus, w, rfl, hw,
    -⟩
  obtain ⟨e', he', d, hd⟩ := hts.loosened
  obtain ⟨body', hbody', o, ho⟩ := hus.tree
  have htokens : t :: n :: u :: (ts ++ [v]) ++ (us ++ [w]) =
      t :: n :: u :: (ts ++ v :: (us ++ [w])) := by
    simp
  rw [htokens]
  exact {
    tree := ⟨.each t.position n.lexeme e' body',
      by simp only [Stmt.joined, Stmt.unplaced, he', hbody'],
      .each ht hn hu d hv o hw, by simp only [Outline.room, Stmt.roomAt, hd, ho]⟩
    begins := .of_word ht rfl
    name := fun h => by cases h }

end Blocks

end ToolScript
