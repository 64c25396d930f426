import Mathlib
import ToolScript.Proofs.Grammar.OutlineSoundness
import ToolScript.Proofs.Lexing

/-!
# Texts that are read

A text is read as an expression exactly if its tokens have a derivation that takes less than
the largest room, and as a script exactly if they have an outline that takes no more. A text
whose tokens have a derivation or an outline that takes more is refused for its nesting and
for nothing else.
-/

namespace ToolScript

namespace Grammar

open Reader

variable {α : Type}

theorem Stream.closed_ofTokens (tokens : List Token) : (Stream.ofTokens tokens).Closed := by
  simp only [Stream.Closed, Stream.ofTokens]
  cases hfind : tokens.find? fun token => token.kind = .endOfInput with
  | none => rfl
  | some stop => simpa using List.find?_some hfind

theorem Stream.ofTokens_concat {tokens : List Token}
    (h : ∀ token ∈ tokens, token.kind ≠ .endOfInput) (place : Position) :
    Stream.ofTokens (tokens ++ [Token.endAt place]) =
      ⟨tokens.headD (Token.endAt place), tokens, Token.endAt place⟩ := by
  have htake : (tokens ++ [Token.endAt place]).takeWhile
      (fun token => token.kind ≠ .endOfInput) = tokens := by
    rw [List.takeWhile_append_of_pos (by simpa using h)]
    simp [Token.endAt]
  have hfind : (tokens ++ [Token.endAt place]).find?
      (fun token => token.kind = .endOfInput) = some (Token.endAt place) := by
    rw [List.find?_append, List.find?_eq_none.2 (by simpa using h)]
    simp [Token.endAt]
  simp only [Stream.ofTokens, htake, hfind, Option.getD_some]

theorem result_eq_ok {reader : Reader α} {tokens : List Token} {a : α}
    (h : reader.result tokens = .ok a) :
    ∃ t, reader (Stream.ofTokens tokens) = .ok (a, t) := by
  unfold Reader.result at h
  split at h
  · next b t hread =>
      cases h
      exact ⟨t, hread⟩
  · cases h

/-- A reader that goes up to the end of input takes all the tokens of a text. -/
theorem Sound.of_result {reader : Reader α} {P : List Token → α → Prop} {tokens : List Token}
    {place : Position} {a : α}
    (hreader : Sound reader fun ts rest a => firstKind rest = .endOfInput ∧ P ts a)
    (htokens : ∀ token ∈ tokens, token.kind ≠ .endOfInput)
    (h : reader.result (tokens ++ [Token.endAt place]) = .ok a) : P tokens a := by
  obtain ⟨t, hread⟩ := result_eq_ok h
  obtain ⟨ts, hts, hend, hP⟩ := hreader _ _ _ (Stream.closed_ofTokens _) hread
  have hahead := hts.ahead
  rw [Stream.ofTokens_concat htokens] at hahead
  change tokens = ts ++ t.ahead at hahead
  cases hrest : t.ahead with
  | nil =>
      rw [hrest, List.append_nil] at hahead
      exact hahead ▸ hP
  | cons token rest =>
      rw [hrest] at hahead hend
      exact absurd hend (htokens token (by simp [hahead]))

/-- What a reader makes of tokens that it reads to the end. -/
theorem Leads.result {fits : Prop} {reader : Reader α} {tokens : List Token} {a : α}
    (h : Leads fits reader tokens [] (pure a))
    (htokens : ∀ token ∈ tokens, token.kind ≠ .endOfInput) (place : Position) :
    (fits → reader.result (tokens ++ [Token.endAt place]) = .ok a) ∧
      (¬ fits → ∃ found, reader.result (tokens ++ [Token.endAt place]) =
        .error ⟨.lessNesting, found⟩) := by
  have hstream := Stream.ofTokens_concat htokens place
  constructor
  · intro hfits
    have hread := h.reads hfits (tokens.headD (Token.endAt place)) (Token.endAt place) rfl
    rw [List.append_nil] at hread
    rw [Reader.result, hstream, hread]
    rfl
  · intro hfits
    obtain ⟨found, hread⟩ :=
      h.refuses hfits (tokens.headD (Token.endAt place)) (Token.endAt place) rfl
    rw [List.append_nil] at hread
    refine ⟨found, ?_⟩
    rw [Reader.result, hstream, hread]

theorem sound_wholeExpression :
    Sound wholeExpression fun ts rest e => firstKind rest = .endOfInput ∧
      ∃ d : Derivation (.chain levels e) ts, d.room < maxNesting := by
  intro s t e hs h
  obtain ⟨e', s₁, hread, h⟩ := bind_eq_ok_iff.1 h
  obtain ⟨ts, hts, d, hd, -⟩ := sound_expression maxNesting _ _ _ hs hread
  obtain ⟨kind, s₂, hpeek, hpure⟩ := bind_eq_ok_iff.1 h
  obtain ⟨rfl, rfl⟩ := peekKind_eq_ok (hts.closed hs) hpeek
  split at hpure
  · next hend =>
      obtain ⟨rfl, rfl⟩ := pure_eq_ok_iff.1 hpure
      exact ⟨ts, hts, hend, d, hd⟩
  · cases hpure

theorem Derivation.leads_whole {e : Expr} {ts : List Token}
    (d : Derivation (.chain levels e) ts) :
    Leads (d.room < maxNesting) wholeExpression ts [] (pure e) := by
  refine ((d.leads_expression maxNesting (.of_ends rfl)).bind_still (q := True) ?_).congr
    ⟨And.left, fun h => ⟨h, trivial⟩⟩
  exact (leads_peekKind ([] ++ [])).look (.refl _ _)

/-- No row of tokens spells two expressions. -/
theorem Derivation.unique {a b : Expr} {tokens : List Token}
    (d : Derivation (.chain levels a) tokens) (d' : Derivation (.chain levels b) tokens) :
    a = b := by
  -- both are what a reader of expressions gives that has room for either
  let room := max d.room d'.room + 1
  have hread (c : Expr) (d : Derivation (.chain levels c) tokens) (hd : d.room < room) :
      expression room ⟨Token.endAt .start, tokens ++ [], Token.endAt .start⟩ =
        .ok (c, ⟨tokens.getLastD (Token.endAt .start), [], Token.endAt .start⟩) :=
    (d.leads_expression room (.of_ends rfl)).reads hd _ _ rfl
  have heq := (hread a d (by omega)).symm.trans (hread b d' (by omega))
  exact (Prod.mk.inj (Except.ok.inj heq)).1

theorem Outline.leads_statements {stmts : List Stmt} {ts : List Token}
    (o : Outline (.statements stmts) ts) :
    Leads (o.room ≤ maxNesting) statements ts [] (pure stmts) :=
  o.reads maxNesting [] scriptRound [] rounds_script

end Grammar

open Grammar Lexer

section Texts

variable {source : String} {tokens : List Token}

theorem Lexer.Tokenizes.inside (h : Tokenizes source tokens) :
    ∀ token ∈ tokens, token.kind ≠ .endOfInput :=
  fun token htoken => (h.sensible token htoken).inside

/-- What is read as an expression fits into the largest room. -/
theorem Expr.parse_eq_ok {e : Expr} (h : Expr.parse source = .ok e) :
    ∃ tokens, Tokenizes source tokens ∧
      ∃ d : Derivation (.chain levels e) tokens, d.room < maxNesting := by
  unfold Expr.parse at h
  split at h
  · next all hall =>
      obtain ⟨tokens, htokens, place, rfl⟩ := tokenize_eq_ok hall
      split at h
      · next e' hresult =>
          cases h
          exact ⟨tokens, htokens, sound_wholeExpression.of_result htokens.inside hresult⟩
      · cases h
  · cases h

theorem Script.ofTokens_eq_ok {script : Script} (h : Script.ofTokens tokens = .ok script) :
    Grammar.statements.result tokens = .ok script.statements := by
  unfold Script.ofTokens at h
  split at h
  · next stmts hresult =>
      cases h
      exact hresult
  · cases h

/-- What is read as a script fits into the largest room. -/
theorem Script.parse_eq_ok {script : Script} (h : Script.parse source = .ok script) :
    ∃ tokens, Tokenizes source tokens ∧
      ∃ o : Outline (.statements script.statements) tokens, o.room ≤ maxNesting := by
  unfold Script.parse at h
  split at h
  · next all hall =>
      obtain ⟨tokens, htokens, place, rfl⟩ := tokenize_eq_ok hall
      exact ⟨tokens, htokens,
        sound_statements.of_result htokens.inside (Script.ofTokens_eq_ok h)⟩
  · cases h

/-- An expression is read if there is room for it, and else it is refused for its nesting. -/
theorem Expr.parse_of_derivation {e : Expr} (h : Tokenizes source tokens)
    (d : Derivation (.chain levels e) tokens) :
    (d.room < maxNesting → Expr.parse source = .ok e) ∧
      (¬ d.room < maxNesting →
        ∃ found, Expr.parse source = .error (Grammar.Fault.failure ⟨.lessNesting, found⟩)) := by
  have hinside := h.inside
  obtain ⟨place, hsource⟩ := h
  obtain ⟨hok, herror⟩ := d.leads_whole.result hinside place
  constructor
  · intro hroom
    simp only [Expr.parse, hsource, hok hroom]
  · intro hroom
    obtain ⟨found, hfound⟩ := herror hroom
    exact ⟨found, by simp only [Expr.parse, hsource, hfound]⟩

/-- A script is read if there is room for it, and else it is refused for its nesting. -/
theorem Script.parse_of_outline {script : Script} (h : Tokenizes source tokens)
    (o : Outline (.statements script.statements) tokens) :
    (o.room ≤ maxNesting → Script.parse source = .ok script) ∧
      (¬ o.room ≤ maxNesting →
        ∃ found, Script.parse source = .error (Grammar.Fault.failure ⟨.lessNesting, found⟩)) := by
  have hinside := h.inside
  obtain ⟨place, hsource⟩ := h
  obtain ⟨hok, herror⟩ := o.leads_statements.result hinside place
  constructor
  · intro hroom
    simp only [Script.parse, Script.ofTokens, hsource, hok hroom]
  · intro hroom
    obtain ⟨found, hfound⟩ := herror hroom
    exact ⟨found, by simp only [Script.parse, Script.ofTokens, hsource, hfound]⟩

end Texts

/-- Reading accepts what the grammar spells and nothing else. Whatever is read is spelled by
all the tokens of the text in a way for which there is room. A text whose tokens spell something
is read as that if there is room for it, and otherwise it is refused for its nesting. Each number
of a text counts as a literal. -/
theorem parse_recognizes (source : String) :
    (∀ e, Expr.parse source = .ok e → ∃ tokens, Tokenizes source tokens ∧
      ∃ d : Derivation (.chain levels e) tokens, d.room < maxNesting) ∧
    (∀ script, Script.parse source = .ok script → ∃ tokens, Tokenizes source tokens ∧
      ∃ o : Outline (.statements script.statements) tokens, o.room ≤ maxNesting) ∧
    ∀ tokens, Tokenizes source tokens →
      (∀ e, ∀ d : Derivation (.chain levels e) tokens,
        (d.room < maxNesting → Expr.parse source = .ok e) ∧
        (¬ d.room < maxNesting → ∃ found,
          Expr.parse source = .error (Grammar.Fault.failure ⟨.lessNesting, found⟩))) ∧
      (∀ script : Script, ∀ o : Outline (.statements script.statements) tokens,
        (o.room ≤ maxNesting → Script.parse source = .ok script) ∧
        (¬ o.room ≤ maxNesting → ∃ found,
          Script.parse source = .error (Grammar.Fault.failure ⟨.lessNesting, found⟩))) ∧
      ∀ token ∈ tokens, token.kind = .number → ∃ value, token.literal? = some value := by
  refine ⟨fun e => Expr.parse_eq_ok, fun script => Script.parse_eq_ok, fun tokens htokens =>
    ⟨fun e d => Expr.parse_of_derivation htokens d,
      fun script o => Script.parse_of_outline htokens o, fun token htoken hkind => ?_⟩⟩
  have hvalue := (htokens.sensible token htoken).value hkind
  rw [String.ofList_toList] at hvalue
  obtain ⟨n, hn⟩ := Option.isSome_iff_exists.1 hvalue
  exact ⟨.number n, by simp [Token.literal?, hkind, hn]⟩

/-- A name occurs twice, and a comma stands behind the last entry. In the second text operators of
several levels stand side by side, with differences grouped to the left. -/
theorem parse_recognizes_mixed :
    (∃ tokens, Tokenizes "{k: a, j: b, k: c,}" tokens ∧
      ∃ d : Derivation (.chain levels (.object ⟨1, 1⟩
        [("k", .ref ⟨1, 17⟩ "c"), ("j", .ref ⟨1, 11⟩ "b")])) tokens, d.room < maxNesting) ∧
    Expr.parse "a - b - c * d OR NOT e < f" =
      .ok (.binary ⟨1, 15⟩ .or
        (.binary ⟨1, 7⟩ .sub (.binary ⟨1, 3⟩ .sub (.ref ⟨1, 1⟩ "a") (.ref ⟨1, 5⟩ "b"))
          (.binary ⟨1, 11⟩ .mul (.ref ⟨1, 9⟩ "c") (.ref ⟨1, 13⟩ "d")))
        (.binary ⟨1, 24⟩ .less (.unary ⟨1, 18⟩ .not (.ref ⟨1, 22⟩ "e")) (.ref ⟨1, 26⟩ "f"))) := by
  constructor
  · exact (parse_recognizes _).1 _ (by cbv)
  · let name (text : String) (column : Nat) : Token := ⟨.identifier, text, ⟨1, column⟩⟩
    let sign (sign : Symbol) (column : Nat) : Token := ⟨.symbol sign, sign.spelling, ⟨1, column⟩⟩
    let word (word : Keyword) (column : Nat) : Token :=
      ⟨.keyword word, word.spelling, ⟨1, column⟩⟩
    have htokens : Tokenizes "a - b - c * d OR NOT e < f" [name "a" 1, sign .minus 3, name "b" 5,
        sign .minus 7, name "c" 9, sign .star 11, name "d" 13, word .kwOr 15, word .kwNot 18,
        name "e" 22, sign .less 24, name "f" 26] :=
      ⟨⟨1, 27⟩, by cbv⟩
    let ref (text : String) (column : Nat) :
        Derivation (.chain 0 (.ref ⟨1, column⟩ text)) [name text column] :=
      .operand (.primary (.ref (t := name text column) rfl))
    let product := Derivation.binary (t := sign .star 11) (.tighter (ref "c" 9)) .mul (ref "d" 13)
    let difference := Derivation.binary (t := sign .minus 3) (.tighter (.tighter (ref "a" 1))) .sub
      (.tighter (ref "b" 5))
    let left := Derivation.binary (t := sign .minus 7) difference .sub product
    let negation := Derivation.unary (t := word .kwNot 18) .not (ref "e" 22)
    let right := Derivation.binary (t := sign .less 24)
      (.tighter (.tighter (.tighter negation))) .less (.tighter (.tighter (ref "f" 26)))
    let whole := Derivation.binary (t := word .kwOr 15)
      (.tighter (.tighter (.tighter (.tighter left)))) .or (.tighter (.tighter right))
    exact (((parse_recognizes _).2.2 _ htokens).1 _ whole).1 (by decide)

end ToolScript
