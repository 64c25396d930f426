import ToolScript.Proofs.Numbers.Writing
import ToolScript.Proofs.Printing.Room

/-!
# Trees that were read can be written

The names and literals of a tree that was read come from tokens of a text, so they can be
written again. There is one exception: a numeral beyond all doubles is read as the infinite
number, and the text of that is a name. A tree with such numbers has the text of another tree,
where variables stand in their place, and that tree can be written.
-/

namespace ToolScript

namespace Expr

mutual

/-- The expression with a variable in place of each infinite number, whose text is a name. -/
def named : Expr → Expr
  | .literal pos (.number n) =>
      if n.isInf then .ref pos (Number.text n) else .literal pos (.number n)
  | .literal pos value => .literal pos value
  | .ref pos name => .ref pos name
  | .binary pos op left right => .binary pos op left.named right.named
  | .unary pos op operand => .unary pos op operand.named
  | .apply pos name args => .apply pos name (namedItems args)
  | .tool pos name args => .tool pos name (namedEntries args)
  | .list pos items => .list pos (namedItems items)
  | .object pos entries => .object pos (namedEntries entries)
  | .index pos subject place => .index pos subject.named place.named
  | .member pos subject property => .member pos subject.named property
termination_by structural e => e

/-- The expressions with variables in place of infinite numbers. -/
def namedItems : List Expr → List Expr
  | [] => []
  | e :: rest => e.named :: namedItems rest
termination_by structural items => items

/-- The named expressions with variables in place of infinite numbers. -/
def namedEntries : List (String × Expr) → List (String × Expr)
  | [] => []
  | (name, e) :: rest => (name, e.named) :: namedEntries rest
termination_by structural entries => entries

end

/-- What of an expression stays the same with names for its infinite numbers. -/
structure Alike (e e' : Expr) : Prop where
  text : e'.text = e.text
  height : e'.height = e.height
  room : e'.textRoom = e.textRoom

theorem Alike.statementText {e e' : Expr} (h : Alike e e') :
    e'.statementText = e.statementText := by
  unfold Expr.statementText
  rw [h.text]

theorem Alike.roomAs {e e' : Expr} (h : Alike e e') (text : String) :
    e'.roomAs text = e.roomAs text := by
  unfold Expr.roomAs
  rw [h.text, h.room]

mutual

theorem alike_named (e : Expr) : Alike e e.named := by
  cases e with
  | literal pos value =>
      cases value with
      | number n =>
          unfold named
          split <;> exact ⟨rfl, rfl, rfl⟩
      | null | bool | string | list | object => exact ⟨rfl, rfl, rfl⟩
  | ref => exact ⟨rfl, rfl, rfl⟩
  | binary _ _ a b | index _ a b =>
      obtain ⟨htext, hheight, hroom⟩ := alike_named a
      obtain ⟨htext', hheight', hroom'⟩ := alike_named b
      constructor <;>
        simp only [named, Expr.text, Expr.height, textRoom, htext, hheight, hroom, htext', hheight',
          hroom']
  | unary _ op a =>
      obtain ⟨htext, hheight, hroom⟩ := alike_named a
      refine ⟨?_, ?_, ?_⟩
      · cases op <;> simp only [named, Expr.text, htext]
      · simp only [named, Expr.height, hheight]
      · simp only [named, textRoom, hroom]
  | member _ a =>
      obtain ⟨htext, hheight, hroom⟩ := alike_named a
      constructor <;> simp only [named, Expr.text, Expr.height, textRoom, htext, hheight, hroom]
  | apply _ _ items | list _ items =>
      obtain ⟨htext, hheight, hroom⟩ := alike_namedItems items
      constructor <;> simp only [named, Expr.text, Expr.height, textRoom, htext, hheight, hroom]
  | tool _ _ entries | object _ entries =>
      obtain ⟨htext, hheight, hroom⟩ := alike_namedEntries entries
      constructor <;> simp only [named, Expr.text, Expr.height, textRoom, htext, hheight, hroom]

theorem alike_namedItems (items : List Expr) :
    textItems (namedItems items) = textItems items ∧
      heightItems (namedItems items) = heightItems items ∧
      textRoomItems (namedItems items) = textRoomItems items := by
  cases items with
  | nil => exact ⟨rfl, rfl, rfl⟩
  | cons e rest =>
      obtain ⟨htext, hheight, hroom⟩ := alike_named e
      obtain ⟨htexts, hheights, hrooms⟩ := alike_namedItems rest
      simp only [namedItems, textItems, heightItems, textRoomItems, htext, hheight, hroom, htexts,
        hheights, hrooms, and_self]

theorem alike_namedEntries (entries : List (String × Expr)) :
    (∀ key, textEntries key (namedEntries entries) = textEntries key entries) ∧
      heightEntries (namedEntries entries) = heightEntries entries ∧
      textRoomEntries (namedEntries entries) = textRoomEntries entries := by
  cases entries with
  | nil => exact ⟨fun _ => rfl, rfl, rfl⟩
  | cons entry rest =>
      obtain ⟨htext, hheight, hroom⟩ := alike_named entry.2
      obtain ⟨htexts, hheights, hrooms⟩ := alike_namedEntries rest
      simp only [namedEntries, textEntries, heightEntries, textRoomEntries, htext, hheight, hroom,
        htexts, hheights, hrooms, implies_true, and_self]

end

end Expr

namespace Stmt

mutual

/-- The statement with variables in place of infinite numbers. -/
def named : Stmt → Stmt
  | .bind pos name value => .bind pos name value.named
  | .call pos tool args => .call pos tool (Expr.namedEntries args)
  | .branch pos condition yes none => .branch pos condition.named (namedBlock yes) none
  | .branch pos condition yes (some no) =>
      .branch pos condition.named (namedBlock yes) (some (namedBlock no))
  | .each pos name items body => .each pos name items.named (namedBlock body)
  | .expr pos e => .expr pos e.named
termination_by structural stmt => stmt

/-- The statements with variables in place of infinite numbers. -/
def namedBlock : List Stmt → List Stmt
  | [] => []
  | stmt :: rest => stmt.named :: namedBlock rest
termination_by structural stmts => stmts

end

theorem opensWithParen_named (stmt : Stmt) : stmt.named.opensWithParen = stmt.opensWithParen := by
  cases stmt with
  | expr _ e => simp only [named, opensWithParen, e.alike_named.statementText]
  | branch _ _ _ no => cases no <;> rfl
  | bind | call | each => rfl

theorem needsGuard_namedBlock (stmts : List Stmt) :
    needsGuard (namedBlock stmts) = needsGuard stmts := by
  cases stmts with
  | nil => rfl
  | cons stmt rest => exact opensWithParen_named stmt

mutual

theorem textAt_named (stmt : Stmt) (depth : Nat) (guard : Bool) :
    stmt.named.textAt depth guard = stmt.textAt depth guard := by
  cases stmt with
  | bind _ _ e => simp only [named, textAt, e.alike_named.text]
  | call _ _ args => simp only [named, textAt, (Expr.alike_namedEntries args).1]
  | branch _ e yes no =>
      cases no with
      | none => simp only [named, textAt, e.alike_named.text, blockText_named yes]
      | some no =>
          simp only [named, textAt, e.alike_named.text, blockText_named yes, blockText_named no]
  | each _ _ e body => simp only [named, textAt, e.alike_named.text, blockText_named body]
  | expr _ e => simp only [named, textAt, e.alike_named.statementText]

theorem blockText_named (stmts : List Stmt) (depth : Nat) :
    blockText depth (namedBlock stmts) = blockText depth stmts := by
  cases stmts with
  | nil => rfl
  | cons stmt rest =>
      simp only [namedBlock, blockText, needsGuard_namedBlock, textAt_named stmt,
        blockText_named rest]

end

mutual

theorem roomAt_named (stmt : Stmt) (guard : Bool) :
    stmt.named.roomAt guard = stmt.roomAt guard := by
  cases stmt with
  | bind _ _ e => simp only [named, roomAt, e.alike_named.text, e.alike_named.roomAs]
  | call _ _ args => exact (Expr.alike_namedEntries args).2.2
  | branch _ e yes no =>
      cases no with
      | none => simp only [named, roomAt, e.alike_named.room, blockRoom_named yes]
      | some no =>
          simp only [named, roomAt, e.alike_named.room, blockRoom_named yes, blockRoom_named no]
  | each _ _ e body => simp only [named, roomAt, e.alike_named.room, blockRoom_named body]
  | expr _ e => simp only [named, roomAt, e.alike_named.statementText, e.alike_named.roomAs]

theorem blockRoom_named (stmts : List Stmt) : blockRoom (namedBlock stmts) = blockRoom stmts := by
  cases stmts with
  | nil => rfl
  | cons stmt rest =>
      simp only [namedBlock, blockRoom, needsGuard_namedBlock, roomAt_named stmt,
        blockRoom_named rest]

end

end Stmt

/-- The script with variables in place of infinite numbers. -/
def Script.named (script : Script) : Script :=
  ⟨Stmt.namedBlock script.statements⟩

theorem Script.text_named (script : Script) : script.named.text = script.text :=
  Stmt.blockText_named script.statements 0

theorem Script.textRoom_named (script : Script) : script.named.textRoom = script.textRoom :=
  Stmt.blockRoom_named script.statements

/-- A number that can be written is finite. -/
theorem Number.Readable.isInf_eq_false {n : Float} (h : Number.Readable n) : n.isInf = false := by
  cases hinf : n.isInf with
  | false => rfl
  | true =>
      obtain ⟨c, rest, hcs, hc⟩ := h.1.begins
      simp only [Number.text, hinf, if_true] at hcs
      repeat' split at hcs
      all_goals
        rw [← (List.cons.inj hcs).1] at hc
        exact absurd hc (by decide)

/-- A name of the token is an identifier, and its digits are those of a number. -/
structure Token.Proper (token : Token) : Prop where
  name : token.IsName → IsIdentifier token.lexeme
  number : token.kind = .number → Decimal.Plain token.lexeme.toList

theorem Token.proper_of_ne {token : Token} (hname : token.kind ≠ .identifier)
    (hnumber : token.kind ≠ .number) : token.Proper :=
  ⟨fun h => absurd h hname, fun h => absurd h hnumber⟩

namespace Lexer

theorem isIdentifier_name {c : Char} {cs : List Char} (hc : isNameStart c = true)
    (h : (name c cs).kind = .identifier) : IsIdentifier (String.ofList (name c cs).lexeme) := by
  simp only [name, Piece.plain, nameKind] at h ⊢
  split at h
  · cases h
  · next hspelling =>
      refine ⟨?_, hspelling⟩
      simp only [isWord, String.toList_ofList, hc, Bool.true_and]
      exact List.all_takeWhile

theorem CutFrom.proper {position : Position} {cs : List Char} {token : Token}
    (h : CutFrom position cs token) : token.Proper := by
  obtain ⟨pre, c, rest, p, -, -, hpiece, rfl⟩ := h
  unfold piece at hpiece
  split at hpiece
  · next hc =>
      cases hpiece
      refine ⟨isIdentifier_name hc, fun hnumber => ?_⟩
      simp only [name, Piece.plain, nameKind] at hnumber
      split at hnumber <;> cases hnumber
  split at hpiece
  · next hdigit =>
      cases hpiece
      refine ⟨fun hname => ?_, fun _ => by simpa using plain_number hdigit rest⟩
      cases hname
  split at hpiece
  · unfold string at hpiece
    split at hpiece <;> cases hpiece
    exact Token.proper_of_ne (by simp) (by simp)
  · unfold symbol single at hpiece
    repeat' split at hpiece
    all_goals cases hpiece
    all_goals exact Token.proper_of_ne (by simp [Piece.plain]) (by simp [Piece.plain])

end Lexer

namespace Expr

theorem namedEntries_eq_map (entries : List (String × Expr)) :
    namedEntries entries = entries.map fun entry => (entry.1, entry.2.named) := by
  induction entries with
  | nil => rfl
  | cons entry rest ih => exact congrArg ((entry.1, entry.2.named) :: ·) ih

theorem keys_namedEntries (entries : List (String × Expr)) :
    Dict.keys (namedEntries entries) = Dict.keys entries := by
  simp only [Dict.keys, namedEntries_eq_map, List.map_map, Function.comp_def]

theorem wellFormedEntries_iff (entries : List (String × Expr)) :
    WellFormedEntries entries ↔ ∀ entry ∈ entries, entry.2.WellFormed := by
  induction entries with
  | nil => simp [WellFormedEntries]
  | cons entry rest ih => simp [WellFormedEntries, ih]

theorem wellFormedEntries_merged {entries : List (String × Expr)}
    (h : WellFormedEntries (namedEntries entries)) :
    WellFormedEntries (namedEntries (Grammar.merged entries)) := by
  rw [Grammar.merged_eq]
  simp only [wellFormedEntries_iff, namedEntries_eq_map, List.forall_mem_map] at h ⊢
  exact fun entry hentry => h entry (Dict.mem_of_mem_ofList hentry)

theorem unique_namedEntries (entries : List (String × Expr)) :
    Dict.Unique (namedEntries (Grammar.merged entries)) := by
  rw [Grammar.merged_eq, Dict.Unique, keys_namedEntries]
  exact Dict.unique_ofList entries

end Expr

namespace Grammar

theorem wellFormed_literal {t : Token} {value : Value} (ht : t.Proper)
    (h : t.literal? = some value) (pos : Position) : (Expr.literal pos value).named.WellFormed := by
  unfold Token.literal? at h
  split at h
  · cases h; exact trivial
  · cases h; exact trivial
  · cases h; exact trivial
  · next hkind =>
      obtain ⟨n, hn, rfl⟩ := Option.map_eq_some_iff.1 h
      rw [← String.ofList_toList (s := t.lexeme)] at hn
      rcases Number.readable_of_plain (ht.number hkind) hn with hreadable | rfl
      · simp only [Expr.named, hreadable.isInf_eq_false, Bool.false_eq_true, if_false]
        exact hreadable
      · exact ⟨by decide, by decide⟩
  · cases h; exact trivial
  · cases h

theorem callable_of_callee {t : Token} {name : String} (ht : t.Proper)
    (h : t.callee? = some name) (args : List Expr) : Expr.Callable name args := by
  unfold Token.callee? at h
  split at h
  · next hkind =>
      cases h
      exact .inl (ht.name hkind)
  · cases h
    exact .inr (.inl rfl)
  · cases h

/-- The trees of a phrase can be written with names for infinite numbers, and the names in
braces are identifiers unless they can be quoted. -/
def Phrase.Writable : Phrase → Prop
  | .chain _ e | .accessed e | .primary e => e.named.WellFormed
  | .items es => Expr.WellFormedItems (Expr.namedItems es)
  | .entries quoted es => Expr.WellFormedEntries (Expr.namedEntries es) ∧
      (quoted = false → ∀ name ∈ Dict.keys es, IsIdentifier name)

theorem isIdentifier_of_label {t : Token} {name : String} (ht : t.Proper)
    (h : t.label? false = some name) : IsIdentifier name := by
  unfold Token.label? at h
  split at h
  · next hkind =>
      cases h
      exact ht.name hkind
  · cases h
  · cases h

/-- The arguments of a tool call that was read can be written. -/
theorem Phrase.Writable.arguments {es : List (String × Expr)}
    (h : (Phrase.entries false es).Writable) :
    Dict.Unique (Expr.namedEntries (merged es)) ∧
      (∀ name ∈ Dict.keys (Expr.namedEntries (merged es)), IsIdentifier name) ∧
      Expr.WellFormedEntries (Expr.namedEntries (merged es)) := by
  refine ⟨Expr.unique_namedEntries es, fun name hname => ?_, Expr.wellFormedEntries_merged h.1⟩
  rw [merged_eq, Expr.keys_namedEntries] at hname
  obtain ⟨entry, hentry, rfl⟩ := List.mem_map.1 hname
  exact h.2 rfl _ (List.mem_map_of_mem (Dict.mem_of_mem_ofList hentry))

/-- What proper tokens spell can be written. -/
theorem Derivation.writable {p : Phrase} {ts : List Token} (d : Derivation p ts)
    (h : ∀ t ∈ ts, t.Proper) : p.Writable := by
  induction d with
  | operand _ ih | tighter _ ih | primary _ ih => exact ih h
  | unary _ _ ih => exact ih fun t ht => h t (List.mem_cons_of_mem _ ht)
  | binary _ _ _ ih ih' =>
      exact ⟨ih fun t ht => h t (by simp [ht]), ih' fun t ht => h t (by simp [ht])⟩
  | index _ _ _ _ ih ih' =>
      exact ⟨ih fun t ht => h t (by simp [ht]), ih' fun t ht => h t (by simp [ht])⟩
  | member _ _ hu ih => exact ⟨ih fun t ht => h t (by simp [ht]), (h _ (by simp)).name hu⟩
  | literal ht => exact wellFormed_literal (h _ (by simp)) ht _
  | ref ht => exact (h _ (by simp)).name ht
  | now => exact ⟨.inr (.inr ⟨rfl, rfl⟩), trivial⟩
  | apply ht _ _ _ ih =>
      exact ⟨callable_of_callee (h _ (by simp)) ht _, ih fun t ht => h t (by simp [ht])⟩
  | tool _ hf _ _ _ ih =>
      exact ⟨(h _ (by simp)).name hf, (ih fun t ht => h t (by simp [ht])).arguments⟩
  | group _ _ _ ih => exact ih fun t ht => h t (by simp [ht])
  | list _ _ _ _ ih => exact ih fun t ht => h t (by simp [ht])
  | object _ _ _ _ ih =>
      have hentries := ih fun t ht => h t (by simp [ht])
      exact ⟨Expr.unique_namedEntries _, Expr.wellFormedEntries_merged hentries.1⟩
  | noItems => exact trivial
  | lastItem _ ih => exact ⟨ih h, trivial⟩
  | moreItems _ _ _ ih ih' =>
      exact ⟨ih fun t ht => h t (by simp [ht]), ih' fun t ht => h t (by simp [ht])⟩
  | noEntries => exact ⟨trivial, by simp [Dict.keys]⟩
  | @lastEntry q _ n _ _ _ ht _ _ ih =>
      refine ⟨⟨ih fun t ht => h t (by simp [ht]), trivial⟩, ?_⟩
      rintro rfl name hname
      obtain rfl : name = n := by simpa [Dict.keys] using hname
      exact isIdentifier_of_label (h _ (by simp)) ht
  | @moreEntries q _ n _ _ _ _ _ _ _ ht _ _ _ _ ih ih' =>
      obtain ⟨hrest, hkeys⟩ := ih' fun t ht => h t (by simp [ht])
      refine ⟨⟨ih fun t ht => h t (by simp [ht]), hrest⟩, ?_⟩
      rintro rfl name hname
      rcases List.mem_cons.1 hname with rfl | hname
      · exact isIdentifier_of_label (h _ (by simp)) ht
      · exact hkeys rfl name hname

/-- The statements of a passage can be written with names for infinite numbers. -/
def Passage.Writable : Passage → Prop
  | .statement stmt => stmt.named.WellFormed
  | .statements stmts => Stmt.WellFormedBlock (Stmt.namedBlock stmts)

theorem Outline.writable {p : Passage} {ts : List Token} (o : Outline p ts)
    (h : ∀ t ∈ ts, t.Proper) : p.Writable := by
  induction o with
  | bind _ hn _ d =>
      exact ⟨(h _ (by simp)).name hn, d.writable fun t ht => h t (by simp [ht])⟩
  | call _ hf _ d =>
      exact ⟨(h _ (by simp)).name hf, (d.writable fun t ht => h t (by simp [ht])).arguments⟩
  | branch _ d _ _ _ ih =>
      exact ⟨d.writable fun t ht => h t (by simp [ht]), ih fun t ht => h t (by simp [ht])⟩
  | branches _ d _ _ _ _ _ ih ih' =>
      exact ⟨d.writable fun t ht => h t (by simp [ht]), ih fun t ht => h t (by simp [ht]),
        ih' fun t ht => h t (by simp [ht])⟩
  | each _ hn _ d _ _ _ ih =>
      exact ⟨(h _ (by simp)).name hn, d.writable fun t ht => h t (by simp [ht]),
        ih fun t ht => h t (by simp [ht])⟩
  | expr d => exact d.writable h
  | none => exact trivial
  | cons _ _ _ ih ih' =>
      exact ⟨ih fun t ht => h t (by simp [ht]), ih' fun t ht => h t (by simp [ht])⟩

end Grammar

section Texts

variable {source : String}

theorem Expr.wellFormed_named {e : Expr} (h : Expr.parse source = .ok e) : e.named.WellFormed := by
  obtain ⟨tokens, htokens, d, -⟩ := Expr.parse_eq_ok h
  exact d.writable fun t ht => (htokens.cut t ht).proper

theorem Script.wellFormed_named {script : Script} (h : Script.parse source = .ok script) :
    script.named.WellFormed := by
  obtain ⟨tokens, htokens, o, -⟩ := Script.parse_eq_ok h
  exact o.writable fun t ht => (htokens.cut t ht).proper

end Texts

end ToolScript
