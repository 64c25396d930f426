import Mathlib.Data.List.Basic
import Mathlib.Data.List.Induction
import ToolScript.Proofs.Grammar.Reading

/-!
# The grammar and its derivations

A derivation shows how a row of tokens spells a phrase. The rules are those of a stratified
grammar: six levels of operators, each grouped to the left, operators before an operand,
indices and members behind it, and the expressions that begin with a token of their own.
Repeated names in braces keep their first place and their last value. The grammar has tables
of its own for the operators and their levels and for what becomes of repeated names; that
the readers go by the same tables is a result.

The rules do not know about nesting. How much room reading a derivation takes is computed
from it afterwards: every bracket and every operator before an operand asks for one unit
more than what it contains, and a tree that grows to the right end asks for its height.
-/

namespace ToolScript

namespace Token

/-- The token is the given symbol. -/
abbrev Is (token : Token) (sign : Symbol) : Prop :=
  token.kind = .symbol sign

/-- The token is the given reserved word. -/
abbrev IsWord (token : Token) (word : Keyword) : Prop :=
  token.kind = .keyword word

/-- The token is an identifier. -/
abbrev IsName (token : Token) : Prop :=
  token.kind = .identifier

/-- The value that a token spells on its own. -/
def literal? (token : Token) : Option Value :=
  match token.kind with
  | .keyword .kwTrue => some (.bool true)
  | .keyword .kwFalse => some (.bool false)
  | .keyword .kwNull => some .null
  | .number => (Number.ofText? token.lexeme).map .number
  | .string => some (.string token.lexeme)
  | _ => none

/-- The function that a token names when arguments follow it. -/
def callee? (token : Token) : Option String :=
  match token.kind with
  | .identifier => some token.lexeme
  | .keyword .kwPrint => some "PRINT"
  | _ => none

/-- The name that a token gives to an entry. With `quoted` set it may be a string. -/
def label? (quoted : Bool) (token : Token) : Option String :=
  match token.kind with
  | .identifier => some token.lexeme
  | .string => if quoted then some token.lexeme else none
  | _ => none

end Token

namespace Grammar

/-- The operators between two operands: the level of each, from those that bind tightest, and
the kind of token that stands for it. -/
inductive Joins : Nat → Token.Kind → BinaryOp → Prop
  | mul : Joins 1 (.symbol .star) .mul
  | div : Joins 1 (.symbol .slash) .div
  | mod : Joins 1 (.symbol .percent) .mod
  | add : Joins 2 (.symbol .plus) .add
  | sub : Joins 2 (.symbol .minus) .sub
  | less : Joins 3 (.symbol .less) .less
  | lessEqual : Joins 3 (.symbol .lessEqual) .lessEqual
  | greater : Joins 3 (.symbol .greater) .greater
  | greaterEqual : Joins 3 (.symbol .greaterEqual) .greaterEqual
  | equal : Joins 4 (.symbol .equal) .equal
  | notEqual : Joins 4 (.symbol .notEqual) .notEqual
  | and : Joins 5 (.keyword .kwAnd) .and
  | or : Joins 6 (.keyword .kwOr) .or

/-- The number of levels. -/
abbrev levels : Nat := 6

/-- The operators before an operand and the kind of token that stands for each. -/
inductive Modifies : Token.Kind → UnaryOp → Prop
  | not : Modifies (.keyword .kwNot) .not
  | negate : Modifies (.symbol .minus) .negate
  | plus : Modifies (.symbol .plus) .plus

/-- What is left of a row of named entries: each name in its first place, with its last
value. -/
def merged {α : Type} (entries : List (String × α)) : List (String × α) :=
  (entries.map Prod.fst).eraseDups.filterMap fun name =>
    entries.reverse.find? fun entry => entry.1 = name

/-- What a row of tokens can spell: an expression with operators up to a level, one without
operators, one without indices and members too, and expressions with commas between them,
plain or named. -/
inductive Phrase where
  | chain (level : Nat) (e : Expr)
  | accessed (e : Expr)
  | primary (e : Expr)
  | items (es : List Expr)
  | entries (quoted : Bool) (es : List (String × Expr))

/-- What may stand between the last of some items and the closing bracket: nothing, or one
comma if there is an item. -/
inductive Tail {α : Type} : List α → List Token → Prop
  | none (items : List α) : Tail items []
  | comma {token : Token} (item : α) (items : List α) (h : token.Is .comma) :
      Tail (item :: items) [token]

/-- A derivation of a phrase from the tokens that spell it. -/
inductive Derivation : Phrase → List Token → Type
  | operand {e ts} (d : Derivation (.accessed e) ts) : Derivation (.chain 0 e) ts
  | unary {t op e ts} (ht : Modifies t.kind op) (d : Derivation (.chain 0 e) ts) :
      Derivation (.chain 0 (.unary t.position op e)) (t :: ts)
  | tighter {l e ts} (d : Derivation (.chain l e) ts) : Derivation (.chain (l + 1) e) ts
  | binary {l a b t op ts us} (d : Derivation (.chain (l + 1) a) ts)
      (ht : Joins (l + 1) t.kind op) (d' : Derivation (.chain l b) us) :
      Derivation (.chain (l + 1) (.binary t.position op a b)) (ts ++ t :: us)
  | primary {e ts} (d : Derivation (.primary e) ts) : Derivation (.accessed e) ts
  | index {a b t u ts us} (d : Derivation (.accessed a) ts) (ht : t.Is .leftBracket)
      (d' : Derivation (.chain levels b) us) (hu : u.Is .rightBracket) :
      Derivation (.accessed (.index t.position a b)) (ts ++ t :: (us ++ [u]))
  | member {a t u ts} (d : Derivation (.accessed a) ts) (ht : t.Is .dot) (hu : u.IsName) :
      Derivation (.accessed (.member t.position a u.lexeme)) (ts ++ [t, u])
  | literal {t v} (ht : t.literal? = some v) :
      Derivation (.primary (.literal t.position v)) [t]
  | ref {t} (ht : t.IsName) : Derivation (.primary (.ref t.position t.lexeme)) [t]
  | now {t u v} (ht : t.IsWord .kwNow) (hu : u.Is .leftParen) (hv : v.Is .rightParen) :
      Derivation (.primary (.apply t.position "NOW" [])) [t, u, v]
  | apply {t f u v es ts} (ht : t.callee? = some f) (hu : u.Is .leftParen)
      (d : Derivation (.items es) ts) (hv : v.Is .rightParen) :
      Derivation (.primary (.apply t.position f es)) (t :: u :: (ts ++ [v]))
  | tool {t f u v es ts} (ht : t.IsWord .kwCall) (hf : f.IsName) (hu : u.Is .leftBrace)
      (d : Derivation (.entries false es) ts) (hv : v.Is .rightBrace) :
      Derivation (.primary (.tool t.position f.lexeme (merged es)))
        (t :: f :: u :: (ts ++ [v]))
  | group {t u e ts} (ht : t.Is .leftParen) (d : Derivation (.chain levels e) ts)
      (hu : u.Is .rightParen) : Derivation (.primary e) (t :: (ts ++ [u]))
  | list {t u es ts us} (ht : t.Is .leftBracket) (d : Derivation (.items es) ts)
      (htail : Tail es us) (hu : u.Is .rightBracket) :
      Derivation (.primary (.list t.position es)) (t :: (ts ++ us ++ [u]))
  | object {t u es ts us} (ht : t.Is .leftBrace) (d : Derivation (.entries true es) ts)
      (htail : Tail es us) (hu : u.Is .rightBrace) :
      Derivation (.primary (.object t.position (merged es))) (t :: (ts ++ us ++ [u]))
  | noItems : Derivation (.items []) []
  | lastItem {e ts} (d : Derivation (.chain levels e) ts) : Derivation (.items [e]) ts
  | moreItems {e f es t ts us} (d : Derivation (.chain levels e) ts) (ht : t.Is .comma)
      (d' : Derivation (.items (f :: es)) us) :
      Derivation (.items (e :: f :: es)) (ts ++ t :: us)
  | noEntries {q} : Derivation (.entries q []) []
  | lastEntry {q t n u e ts} (ht : t.label? q = some n) (hu : u.Is .colon)
      (d : Derivation (.chain levels e) ts) :
      Derivation (.entries q [(n, e)]) (t :: u :: ts)
  | moreEntries {q t n u e f es v ts us} (ht : t.label? q = some n) (hu : u.Is .colon)
      (d : Derivation (.chain levels e) ts) (hv : v.Is .comma)
      (d' : Derivation (.entries q (f :: es)) us) :
      Derivation (.entries q ((n, e) :: f :: es)) (t :: u :: (ts ++ v :: us))

/-- The room that reading a derivation takes. -/
def Derivation.room {p : Phrase} {ts : List Token} : Derivation p ts → Nat
  | .operand d | .tighter d | .primary d | .apply _ _ d _ | .tool _ _ _ d _
  | .list _ d _ _ | .object _ d _ _ => d.room
  | .unary _ d | .group _ d _ | .lastItem d | .lastEntry _ _ d => d.room + 1
  | .binary (a := a) (b := b) d _ d' => max (max d.room d'.room) (max a.height b.height + 1)
  | .index (a := a) (b := b) d _ d' _ =>
      max (max d.room (d'.room + 1)) (max a.height b.height + 1)
  | .member (a := a) d _ _ => max d.room (a.height + 1)
  | .literal _ | .ref _ | .now _ _ _ | .noItems | .noEntries => 0
  | .moreItems d _ d' | .moreEntries _ _ d _ d' => max (d.room + 1) d'.room

section Tables

variable {level : Nat} {kind other : Token.Kind}

/-- The readers take the operators of each level for what they are. -/
theorem joins_iff {op : BinaryOp} :
    Joins level kind op ↔ BinaryOp.ofKind? kind = some op ∧ op.level = level := by
  constructor
  · intro h
    cases h <;> exact ⟨rfl, rfl⟩
  · rintro ⟨hkind, rfl⟩
    unfold BinaryOp.ofKind? at hkind
    split at hkind <;> cases hkind <;> constructor

theorem modifies_iff {op : UnaryOp} : Modifies kind op ↔ UnaryOp.ofKind? kind = some op := by
  constructor
  · intro h
    cases h <;> rfl
  · intro hkind
    unfold UnaryOp.ofKind? at hkind
    split at hkind <;> cases hkind <;> constructor

theorem Joins.ne {op : BinaryOp} (h : Joins level kind op)
    (hother : BinaryOp.ofKind? other = none) : kind ≠ other := by
  rintro rfl
  rw [(joins_iff.1 h).1] at hother
  cases hother

theorem Joins.level_pos {op : BinaryOp} (h : Joins level kind op) : 0 < level := by
  cases h <;> decide

theorem Joins.le_levels {op : BinaryOp} (h : Joins level kind op) : level ≤ levels := by
  cases h <;> decide

theorem Modifies.ne {op : UnaryOp} (h : Modifies kind op)
    (hother : UnaryOp.ofKind? other = none) : kind ≠ other := by
  rintro rfl
  rw [modifies_iff.1 h] at hother
  cases hother

theorem keys_ofList {α : Type} (entries : List (String × α)) :
    Dict.keys (Dict.ofList entries) = (entries.map Prod.fst).eraseDups := by
  induction entries using List.reverseRecOn with
  | nil => rfl
  | append_singleton entries entry ih =>
      rw [Dict.ofList_concat, Dict.keys_insert, ih, List.map_append, List.eraseDups_append]
      by_cases h : entry.1 ∈ entries.map Prod.fst <;>
        simp [h, List.removeAll, List.eraseDups_cons]

theorem find?_ofList {α : Type} (entries : List (String × α)) (name : String) :
    (Dict.ofList entries).find? (fun entry => entry.1 = name) =
      entries.reverse.find? fun entry => entry.1 = name := by
  induction entries using List.reverseRecOn with
  | nil => rfl
  | append_singleton entries entry ih =>
      obtain ⟨key, value⟩ := entry
      rw [Dict.ofList_concat, Dict.find?_insert, ih, List.reverse_concat, List.find?_cons]
      by_cases h : key = name <;> simp [h]

/-- The readers of named entries leave of them what the grammar says. -/
theorem merged_eq {α : Type} (entries : List (String × α)) :
    merged entries = Dict.ofList entries := by
  have hfind (entry) (hentry : entry ∈ Dict.ofList entries) :
      entries.reverse.find? (fun other => other.1 = entry.1) = some entry := by
    rw [← find?_ofList]
    exact (Dict.unique_ofList entries).find?_eq hentry
  rw [merged, ← keys_ofList, Dict.keys, List.filterMap_map]
  calc _ = (Dict.ofList entries).filterMap some := List.filterMap_congr hfind
    _ = Dict.ofList entries := List.filterMap_some

end Tables

/-- The kinds of tokens that an expression can begin with. -/
def opens : Token.Kind → Bool
  | .identifier | .number | .string => true
  | .keyword word => word ∈ [.kwTrue, .kwFalse, .kwNull, .kwNow, .kwPrint, .kwCall, .kwNot]
  | .symbol sign => sign ∈ [.leftParen, .leftBracket, .leftBrace, .minus, .plus]
  | .endOfInput => false

/-- Only a row without items or entries is spelled by no token. -/
def Phrase.nonempty : Phrase → Bool
  | .items [] | .entries _ [] => false
  | _ => true

theorem firstKind_append {ts : List Token} (h : ts ≠ []) (us : List Token) :
    firstKind (ts ++ us) = firstKind ts := by
  cases ts with
  | nil => exact absurd rfl h
  | cons t ts => rfl

theorem ne_nil_of_opens {ts : List Token} (h : opens (firstKind ts) = true) : ts ≠ [] := by
  rintro rfl
  exact absurd h (by decide)

theorem opens_append {ts : List Token} (h : opens (firstKind ts) = true) (us : List Token) :
    opens (firstKind (ts ++ us)) = true := by
  rw [firstKind_append (ne_nil_of_opens h) us]
  exact h

theorem opens_of_modifies {kind : Token.Kind} {op : UnaryOp} (h : Modifies kind op) :
    opens kind = true := by
  cases h <;> rfl

theorem opens_of_literal {token : Token} {value : Value} (h : token.literal? = some value) :
    opens token.kind = true := by
  unfold Token.literal? at h
  split at h <;> simp_all [opens]

theorem opens_of_callee {token : Token} {name : String} (h : token.callee? = some name) :
    opens token.kind = true := by
  unfold Token.callee? at h
  split at h <;> simp_all [opens]

theorem opens_of_label {quoted : Bool} {token : Token} {name : String}
    (h : token.label? quoted = some name) : opens token.kind = true := by
  unfold Token.label? at h
  split at h <;> simp_all [opens]

/-- A phrase begins with a token that opens an expression. -/
theorem Derivation.opens_first {p : Phrase} {ts : List Token} (d : Derivation p ts)
    (hp : p.nonempty = true) : opens (firstKind ts) = true := by
  induction d with
  | noItems | noEntries => cases hp
  | operand _ ih | tighter _ ih | primary _ ih | lastItem _ ih => exact ih rfl
  | unary ht => exact opens_of_modifies ht
  | binary _ _ _ ih | index _ _ _ _ ih | member _ _ _ ih | moreItems _ _ _ ih =>
      exact opens_append (ih rfl) _
  | literal ht => exact opens_of_literal ht
  | apply ht => exact opens_of_callee ht
  | lastEntry ht | moreEntries ht => exact opens_of_label ht
  | ref ht | now ht | tool ht | group ht | list ht | object ht =>
      rw [firstKind_cons, ht]
      rfl

/-- Phrases without operators outside brackets. -/
def Phrase.plain : Phrase → Bool
  | .accessed _ | .primary _ => true
  | _ => false

theorem unary_none_of_literal {token : Token} {value : Value}
    (h : token.literal? = some value) : UnaryOp.ofKind? token.kind = none := by
  unfold Token.literal? at h
  split at h <;> simp_all [UnaryOp.ofKind?]

theorem unary_none_of_callee {token : Token} {name : String} (h : token.callee? = some name) :
    UnaryOp.ofKind? token.kind = none := by
  unfold Token.callee? at h
  split at h <;> simp_all [UnaryOp.ofKind?]

/-- No operator stands before a phrase without operators. -/
theorem Derivation.unary_none {p : Phrase} {ts : List Token} (d : Derivation p ts)
    (hp : p.plain = true) : UnaryOp.ofKind? (firstKind ts) = none := by
  induction d with
  | primary _ ih => exact ih rfl
  | index d _ _ _ ih | member d _ _ ih =>
      rw [firstKind_append (ne_nil_of_opens (d.opens_first rfl))]
      exact ih rfl
  | literal ht => exact unary_none_of_literal ht
  | apply ht => exact unary_none_of_callee ht
  | ref ht | now ht | tool ht | group ht | list ht | object ht =>
      rw [firstKind_cons, ht]
      rfl
  | operand | unary | tighter | binary | noItems | lastItem | moreItems | noEntries
  | lastEntry | moreEntries => cases hp

/-- The last token is a name without a dot before it, so that a parenthesis behind it would
be taken for the arguments of a call. -/
def endsInName (ts : List Token) : Bool :=
  match ts.reverse with
  | [] => false
  | [name] => name.kind = .identifier
  | name :: before :: _ => name.kind = .identifier && before.kind ≠ .symbol .dot

theorem endsInName_append (ts : List Token) {us : List Token} {t : Token} (hus : us ≠ [])
    (ht : t.kind ≠ .symbol .dot) : endsInName (ts ++ t :: us) = endsInName us := by
  have hrev : (ts ++ t :: us).reverse = us.reverse ++ t :: ts.reverse := by simp
  unfold endsInName
  rw [hrev]
  match hu : us.reverse with
  | [] => exact absurd (List.reverse_eq_nil_iff.1 hu) hus
  | [name] => simp [ht]
  | name :: before :: others => rfl

theorem endsInName_cons {us : List Token} {t : Token} (hus : us ≠ [])
    (ht : t.kind ≠ .symbol .dot) : endsInName (t :: us) = endsInName us :=
  endsInName_append [] hus ht

theorem endsInName_concat (ts : List Token) {t : Token} (ht : t.kind ≠ .identifier) :
    endsInName (ts ++ [t]) = false := by
  unfold endsInName
  rw [List.reverse_append]
  cases ts.reverse <;> simp [ht]

theorem endsInName_member (ts : List Token) {t u : Token} (ht : t.Is .dot) :
    endsInName (ts ++ [t, u]) = false := by
  simp [endsInName, ht]

/-- What stands first in `rest` is not taken for the arguments of a call behind `ts`. -/
def Uncalled (ts rest : List Token) : Prop :=
  firstKind rest = .symbol .leftParen → endsInName ts = false

/-- What stands first in `rest` does not go on with an expression with operators up to
`level` that `ts` spell. -/
structure Stops (level : Nat) (ts rest : List Token) : Prop where
  bracket : firstKind rest ≠ .symbol .leftBracket
  dot : firstKind rest ≠ .symbol .dot
  operator : ∀ l op, Joins l (firstKind rest) op → level < l
  call : Uncalled ts rest

/-- The kinds of tokens that never go on with an expression. -/
def ends (kind : Token.Kind) : Bool :=
  kind ≠ .symbol .leftBracket && kind ≠ .symbol .dot && kind ≠ .symbol .leftParen &&
    BinaryOp.ofKind? kind = none

theorem ends_iff {kind : Token.Kind} : ends kind = true ↔ kind ≠ .symbol .leftBracket ∧
    kind ≠ .symbol .dot ∧ kind ≠ .symbol .leftParen ∧ BinaryOp.ofKind? kind = none := by
  simp [ends, and_assoc]

namespace Stops

variable {level : Nat} {ts us rest : List Token}

theorem of_ends (h : ends (firstKind rest) = true) : Stops level ts rest := by
  obtain ⟨hbracket, hdot, hparen, hop⟩ := ends_iff.1 h
  exact ⟨hbracket, hdot, fun l op h => absurd rfl (h.ne hop), fun heq => absurd heq hparen⟩

theorem mono {m : Nat} (h : Stops level ts rest) (hm : m ≤ level) : Stops m ts rest :=
  ⟨h.bracket, h.dot, fun l op hop => Nat.lt_of_le_of_lt hm (h.operator l op hop), h.call⟩

theorem congr (h : Stops level ts rest) (heq : endsInName us = endsInName ts) :
    Stops level us rest :=
  ⟨h.bracket, h.dot, h.operator, fun hparen => heq.trans (h.call hparen)⟩

end Stops

end Grammar

end ToolScript
