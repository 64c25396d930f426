import ToolScript.Proofs.Grammar.Recognition
import ToolScript.Proofs.Halting
import ToolScript.Proofs.Numbers.Writing
import ToolScript.Proofs.Printing.Expression

/-!
# Written values are evaluated to themselves

The text of a literal is read as another tree: a list and an object become the expressions that
build them, and a negative number becomes a minus sign before its opposite. In every scope that
tree evaluates to the value again, where only zero has lost its sign, and does nothing else.
-/

namespace ToolScript

open Lexer Grammar

namespace Value

mutual

/-- The value and all values inside it. -/
def parts : Value → List Value
  | .list items => .list items :: partsItems items
  | .object entries => .object entries :: partsEntries entries
  | atom => [atom]
termination_by structural value => value

/-- The values and all values inside them. -/
def partsItems : List Value → List Value
  | [] => []
  | item :: rest => item.parts ++ partsItems rest
termination_by structural items => items

/-- The named values and all values inside them. -/
def partsEntries : List (String × Value) → List Value
  | [] => []
  | (_, item) :: rest => item.parts ++ partsEntries rest
termination_by structural entries => entries

end

mutual

/-- The number of values on the longest path into the value. -/
def depth : Value → Nat
  | .list items => depthItems items + 1
  | .object entries => depthEntries entries + 1
  | _ => 1
termination_by structural value => value

/-- The largest depth among the values. -/
def depthItems : List Value → Nat
  | [] => 0
  | item :: rest => max item.depth (depthItems rest)
termination_by structural items => items

/-- The largest depth among the named values. -/
def depthEntries : List (String × Value) → Nat
  | [] => 0
  | (_, item) :: rest => max item.depth (depthEntries rest)
termination_by structural entries => entries

end

mutual

/-- Changes the values without parts. Lists and objects stay, and so do the keys. -/
def mapAtoms (f : Value → Value) : Value → Value
  | .list items => .list (mapItems f items)
  | .object entries => .object (mapEntries f entries)
  | atom => f atom
termination_by structural value => value

/-- Changes the values without parts among the values and inside them. -/
def mapItems (f : Value → Value) : List Value → List Value
  | [] => []
  | item :: rest => item.mapAtoms f :: mapItems f rest
termination_by structural items => items

/-- Changes the values without parts among the named values and inside them. -/
def mapEntries (f : Value → Value) : List (String × Value) → List (String × Value)
  | [] => []
  | (name, item) :: rest => (name, item.mapAtoms f) :: mapEntries f rest
termination_by structural entries => entries

end

/-- The lists and objects of a value, with the keys in their order. -/
def skeleton (value : Value) : Value :=
  value.mapAtoms fun _ => .null

/-- Takes the sign from a zero. -/
def dropSign : Value → Value
  | .number n => .number (if n == 0 then 0 else n)
  | value => value

/-- The value without signs before zeros. -/
def unsignZeros (value : Value) : Value :=
  value.mapAtoms dropSign

/-- A number is finite, and an object has no key twice. -/
def Proper : Value → Prop
  | .number n => n.isFinite = true
  | .object entries => Dict.Unique entries
  | _ => True

theorem keys_mapEntries (f : Value → Value) (entries : List (String × Value)) :
    Dict.keys (mapEntries f entries) = Dict.keys entries := by
  induction entries with
  | nil => rfl
  | cons entry rest ih => exact congrArg (entry.1 :: ·) ih

theorem dropSign_eq {n : Float} (h : n.isFinite = true) :
    (dropSign (.number n)).eq (.number n) = true := by
  simp only [dropSign, eq]
  rcases Number.sign_cases h with ⟨sign, hzero⟩ | ⟨m, e, hm, hpos⟩ | ⟨m, e, hm, hneg⟩
  · obtain ⟨hleft, hright⟩ := Number.beq_zero_of_unpack hzero
    rwa [if_pos hleft]
  · obtain ⟨hself, hne⟩ := Number.beq_self_of_unpack hpos
    simpa only [hne, Bool.false_eq_true, if_false] using hself
  · obtain ⟨hself, hne⟩ := Number.beq_self_of_unpack hneg
    simpa only [hne, Bool.false_eq_true, if_false] using hself

mutual

/-- Without signs before zeros a value is equal to what it was. -/
theorem unsignZeros_eq (value : Value) (h : ∀ part ∈ value.parts, part.Proper) :
    value.unsignZeros.eq value = true := by
  cases value with
  | null => rfl
  | bool b => cases b <;> rfl
  | string s => exact beq_self_eq_true s
  | number n => exact dropSign_eq (h (.number n) (List.mem_singleton_self _))
  | list items => exact mapItems_eq items fun part hpart => h part (List.mem_cons_of_mem _ hpart)
  | object entries =>
      have hunique : Dict.Unique entries := h (.object entries) List.mem_cons_self
      have hlength : (mapEntries dropSign entries).length = entries.length := by
        simpa only [Dict.keys, List.length_map] using
          congrArg List.length (keys_mapEntries dropSign entries)
      refine Bool.and_eq_true_iff.2 ⟨beq_iff_eq.2 hlength, ?_⟩
      exact mapEntries_eq entries entries (fun _ hentry => hunique.get?_eq hentry)
        fun part hpart => h part (List.mem_cons_of_mem _ hpart)

theorem mapItems_eq (items : List Value) (h : ∀ part ∈ partsItems items, part.Proper) :
    eqItems (mapItems dropSign items) items = true := by
  cases items with
  | nil => rfl
  | cons item rest =>
      obtain ⟨hitem, hrest⟩ := List.forall_mem_append.1 h
      exact Bool.and_eq_true_iff.2 ⟨unsignZeros_eq item hitem, mapItems_eq rest hrest⟩

theorem mapEntries_eq (all entries : List (String × Value))
    (hall : ∀ entry ∈ entries, Dict.get? all entry.1 = some entry.2)
    (h : ∀ part ∈ partsEntries entries, part.Proper) :
    eqEntries (mapEntries dropSign entries) all = true := by
  cases entries with
  | nil => rfl
  | cons entry rest =>
      obtain ⟨hentry, hrest⟩ := List.forall_mem_append.1 h
      obtain ⟨hfirst, hothers⟩ := List.forall_mem_cons.1 hall
      simp only [mapEntries, eqEntries, hfirst]
      exact Bool.and_eq_true_iff.2
        ⟨unsignZeros_eq entry.2 hentry, mapEntries_eq all rest hothers hrest⟩

end

mutual

/-- A change of the values without parts that puts no lists or objects in their places keeps the
lists and objects. -/
theorem skeleton_mapAtoms {f : Value → Value} (hf : ∀ value, (f value).skeleton = value.skeleton)
    (value : Value) : (value.mapAtoms f).skeleton = value.skeleton := by
  cases value with
  | null => exact hf .null
  | bool b => exact hf (.bool b)
  | number n => exact hf (.number n)
  | string s => exact hf (.string s)
  | list items => exact congrArg Value.list (skeleton_mapItems hf items)
  | object entries => exact congrArg Value.object (skeleton_mapEntries hf entries)

theorem skeleton_mapItems {f : Value → Value} (hf : ∀ value, (f value).skeleton = value.skeleton)
    (items : List Value) :
    mapItems (fun _ => .null) (mapItems f items) = mapItems (fun _ => .null) items := by
  cases items with
  | nil => rfl
  | cons item rest =>
      exact congrArg₂ List.cons (skeleton_mapAtoms hf item) (skeleton_mapItems hf rest)

theorem skeleton_mapEntries {f : Value → Value}
    (hf : ∀ value, (f value).skeleton = value.skeleton) (entries : List (String × Value)) :
    mapEntries (fun _ => .null) (mapEntries f entries) = mapEntries (fun _ => .null) entries := by
  cases entries with
  | nil => rfl
  | cons entry rest =>
      exact congrArg₂ List.cons (congrArg (Prod.mk entry.1) (skeleton_mapAtoms hf entry.2))
        (skeleton_mapEntries hf rest)

end

theorem skeleton_unsignZeros (value : Value) : value.unsignZeros.skeleton = value.skeleton :=
  skeleton_mapAtoms (fun atom => by cases atom <;> rfl) value

end Value

/-- In every scope and with all tools the expression evaluates to the value and does nothing. -/
def Expr.Denotes (e : Expr) (value : Value) : Prop :=
  ∀ {σ : Type} (host : Host σ) (scope : Scope), e.eval host scope = pure value

/-- The named expression has the name and evaluates to the value. -/
def NamedDenotes (entry : String × Expr) (named : String × Value) : Prop :=
  entry.1 = named.1 ∧ entry.2.Denotes named.2

theorem evalItems_of_denotes {es : List Expr} {values : List Value}
    (h : List.Forall₂ Expr.Denotes es values) {σ : Type} (host : Host σ) (scope : Scope) :
    Expr.evalItems host scope es = pure values := by
  induction h with
  | nil => rfl
  | cons he _ ih => simp only [Expr.evalItems, he host scope, ih, pure_bind]

theorem evalEntries_of_denotes {es : List (String × Expr)} {values : List (String × Value)}
    (h : List.Forall₂ NamedDenotes es values) {σ : Type} (host : Host σ) (scope : Scope) :
    Expr.evalEntries host scope es = pure values := by
  induction h with
  | nil => rfl
  | cons he _ ih => simp only [Expr.evalEntries, he.1, he.2 host scope, ih, pure_bind]

theorem keys_of_denotes {es : List (String × Expr)} {values : List (String × Value)}
    (h : List.Forall₂ NamedDenotes es values) : Dict.keys es = Dict.keys values := by
  induction h with
  | nil => rfl
  | cons he _ ih => exact congrArg₂ List.cons he.1 ih

/-- The tokens spell an expression that evaluates to the value, within the given room. -/
def Denoted (room : Nat) (value : Value) (tokens : List Token) : Prop :=
  ∃ e : Expr, e.Denotes value ∧ ∃ d : Derivation (.chain levels e) tokens, d.room ≤ room

/-- The tokens spell expressions that evaluate to the values, within the given room for each. -/
def DenotedItems (room : Nat) (values : List Value) (tokens : List Token) : Prop :=
  ∃ es : List Expr, List.Forall₂ Expr.Denotes es values ∧
    ∃ d : Derivation (.items es) tokens, d.room ≤ room + 1

/-- The tokens spell named expressions that evaluate to the values, within the given room for
each. -/
def DenotedEntries (room : Nat) (values : List (String × Value)) (tokens : List Token) : Prop :=
  ∃ es : List (String × Expr), List.Forall₂ NamedDenotes es values ∧
    ∃ d : Derivation (.entries true es) tokens, d.room ≤ room + 1

namespace Denoted

variable {room : Nat} {value : Value}

theorem of_primary {e : Expr} {tokens : List Token} (h : e.Denotes value)
    (d : Derivation (.primary e) tokens) (hd : d.room ≤ room) : Denoted room value tokens := by
  obtain ⟨d', hd'⟩ := (Derivation.operand (.primary d)).loosen (Nat.zero_le levels)
  exact ⟨e, h, d', hd'.trans_le hd⟩

theorem of_literal {t : Token} (ht : t.literal? = some value) : Denoted room value [t] :=
  of_primary (fun _ _ => rfl) (.literal ht) (Nat.zero_le room)

/-- A minus sign before a number. -/
theorem of_negation {t u : Token} {n : Float} (ht : t.Is .minus)
    (hu : u.literal? = some (.number n)) : Denoted 1 (.number (-n)) [t, u] := by
  have hop : Modifies t.kind .negate := ht ▸ .negate
  obtain ⟨d, hd⟩ :=
    (Derivation.unary hop (.operand (.primary (.literal hu)))).loosen (Nat.zero_le levels)
  exact ⟨_, fun _ _ => rfl, d, hd.le⟩

end Denoted

theorem cuts_numberText {n : Float} (h : n.isFinite = true) :
    Cuts Apart (Number.text n).toList (Denoted 1 (Value.dropSign (.number n))) := by
  have hreadable {n : Float} (hn : Number.Readable n) :
      Cuts Apart (Number.text n).toList fun tokens =>
        ∃ t : Token, tokens = [t] ∧ t.literal? = some (.number n) := by
    apply (cuts_number hn.1).imp
    rintro _ ⟨t, rfl, ht, hlexeme⟩
    exact ⟨t, rfl, by simp [Token.literal?, ht, hlexeme, hn.2]⟩
  rcases Number.sign_cases h with ⟨sign, hzero⟩ | ⟨m, e, hm, hpos⟩ | ⟨m, e, hm, hneg⟩
  · have hbeq := (Number.beq_zero_of_unpack hzero).1
    have htext : Number.text n = Number.text 0 :=
      (Number.text_of_zero hzero).trans (Number.text_of_zero Decimal.unpack_zero).symm
    rw [htext, Value.dropSign, if_pos hbeq]
    apply (hreadable Number.readable_zero).imp
    rintro _ ⟨t, rfl, ht⟩
    exact .of_literal ht
  · have hbeq := (Number.beq_self_of_unpack hpos).2
    simp only [Value.dropSign, hbeq, Bool.false_eq_true, if_false]
    apply (hreadable (Number.readable_of_unpack hpos)).imp
    rintro _ ⟨t, rfl, ht⟩
    exact .of_literal ht
  · have hbeq := (Number.beq_self_of_unpack hneg).2
    simp only [Value.dropSign, hbeq, Bool.false_eq_true, if_false]
    rw [Number.text_negative hneg, String.toList_append]
    apply ((cuts_solid .minus rfl).followed
      (hreadable (Number.readable_of_unpack (Number.unpack_neg hneg)))).imp
    rintro _ ⟨_, _, rfl, ⟨t, rfl, ht, -⟩, u, rfl, hu⟩
    rw [← Number.neg_neg_of_unpack hneg]
    exact .of_negation ht hu

section Rows

variable {room rest : Nat} {value next : Value} {values : List Value} {text : String}
  {texts : List String}

theorem cuts_denotedItem (h : Cuts Apart text.toList (Denoted room value)) :
    Cuts Apart (commaSeparated [text]).toList (DenotedItems room [value]) := by
  have htext : commaSeparated [text] = text := by simp [commaSeparated]
  rw [htext]
  apply h.imp
  rintro tokens ⟨e, he, d, hd⟩
  exact ⟨[e], .cons he .nil, .lastItem d, Nat.succ_le_succ hd⟩

theorem cuts_denotedItems_cons {text' : String} (h : Cuts Apart text.toList (Denoted room value))
    (hrest : Cuts Apart (commaSeparated (text' :: texts)).toList
      (DenotedItems rest (next :: values))) :
    Cuts Apart (commaSeparated (text :: text' :: texts)).toList
      (DenotedItems (max room rest) (value :: next :: values)) := by
  have hcomma : Cuts Apart (',' :: ' ' :: _) (Both _ (DenotedItems rest (next :: values))) :=
    (cuts_solid .comma rfl).followed hrest.space
  rw [toList_commaSeparated_cons]
  apply (h.parted hcomma rfl).imp
  rintro _ ⟨us, _, rfl, ⟨e, he, d, hd⟩, _, vs, rfl, ⟨t, rfl, ht, -⟩, es, hes, d', hd'⟩
  cases hes with
  | cons hf hes =>
      refine ⟨_, .cons he (.cons hf hes), .moreItems d ht d', ?_⟩
      simp only [Derivation.room]
      omega

theorem cuts_denotedEntry (key : String) (h : Cuts Apart text.toList (Denoted room value)) :
    Cuts Apart (commaSeparated [Text.Quoted.write key ++ ": " ++ text]).toList
      (DenotedEntries room [(key, value)]) := by
  have htext (text : String) : commaSeparated [text] = text := by simp [commaSeparated]
  rw [htext]
  apply (cuts_named (namesEntry_write key) h).imp
  rintro _ ⟨t, u, ts, rfl, ht, hu, e, he, d, hd⟩
  exact ⟨[(key, e)], .cons ⟨rfl, he⟩ .nil, .lastEntry ht hu d, Nat.succ_le_succ hd⟩

theorem cuts_denotedEntries_cons {text' key : String} {named : String × Value}
    {entries : List (String × Value)} (h : Cuts Apart text.toList (Denoted room value))
    (hrest : Cuts Apart (commaSeparated (text' :: texts)).toList
      (DenotedEntries rest (named :: entries))) :
    Cuts Apart (commaSeparated ((Text.Quoted.write key ++ ": " ++ text) :: text' :: texts)).toList
      (DenotedEntries (max room rest) ((key, value) :: named :: entries)) := by
  have hcomma : Cuts Apart (',' :: ' ' :: _) (Both _ (DenotedEntries rest (named :: entries))) :=
    (cuts_solid .comma rfl).followed hrest.space
  rw [toList_commaSeparated_cons]
  apply ((cuts_named (namesEntry_write key) h).parted hcomma rfl).imp
  rintro _ ⟨_, _, rfl, ⟨t, u, ts, rfl, ht, hu, e, he, d, hd⟩, _, vs, rfl, ⟨v, rfl, hv, -⟩,
    es, hes, d', hd'⟩
  cases hes with
  | cons hf hes =>
      refine ⟨_, .cons ⟨rfl, he⟩ (.cons hf hes), .moreEntries ht hu d hv d', ?_⟩
      simp only [Derivation.room]
      omega

end Rows

theorem cuts_denotedList {room : Nat} {values : List Value} {text : String}
    (h : Cuts Apart text.toList (DenotedItems room values)) :
    Cuts Free ("[" ++ text ++ "]").toList (Denoted (room + 1) (.list values)) := by
  have htext : ("[" ++ text ++ "]").toList = ['['] ++ (text.toList ++ [']']) := by simp
  have hclose : Cuts Free (text.toList ++ [']']) (Both (DenotedItems room values) _) :=
    h.parted (cuts_solid .rightBracket rfl) rfl
  rw [htext]
  apply ((cuts_solid .leftBracket rfl).followed hclose).imp
  rintro _ ⟨_, _, rfl, ⟨t, rfl, ht, -⟩, us, _, rfl, ⟨es, hes, d, hd⟩, u, rfl, hu, -⟩
  obtain ⟨d', hd'⟩ := (Derivation.list ht d (.none es) hu).retoken (t :: (us ++ [u]))
    (by rw [List.append_nil])
  refine .of_primary (fun host scope => ?_) d' (hd'.trans_le hd)
  simp only [Expr.eval, evalItems_of_denotes hes, pure_bind]

theorem cuts_denotedObject {room : Nat} {entries : List (String × Value)} {text : String}
    (hunique : Dict.Unique entries) (h : Cuts Apart text.toList (DenotedEntries room entries)) :
    Cuts Free (braced text).toList (Denoted (room + 1) (.object entries)) := by
  have htext : (braced text).toList = ['\x7b'] ++ (text.toList ++ ['\x7d']) := by simp [braced]
  have hclose : Cuts Free (text.toList ++ ['\x7d']) (Both (DenotedEntries room entries) _) :=
    h.parted (cuts_solid .rightBrace rfl) rfl
  rw [htext]
  apply ((cuts_solid .leftBrace rfl).followed hclose).imp
  rintro _ ⟨_, _, rfl, ⟨t, rfl, ht, -⟩, us, _, rfl, ⟨es, hes, d, hd⟩, u, rfl, hu, -⟩
  -- the keys are those of the value, so the object keeps the entries as they stand
  have hes' : merged es = es := by
    rw [merged_eq]
    apply Dict.Unique.ofList_eq
    rw [Dict.Unique, keys_of_denotes hes]
    exact hunique
  obtain ⟨d', hd'⟩ := (Derivation.object ht d (.none es) hu).retoken (t :: (us ++ [u]))
    (by rw [List.append_nil])
  refine .of_primary (fun host scope => ?_) d' (hd'.trans_le hd)
  simp only [Expr.eval, hes', evalEntries_of_denotes hes, pure_bind]

namespace Value

mutual

/-- The text of a value is cut into tokens that spell it, within the room of its depth. -/
theorem cuts_literalText (value : Value) (h : ∀ part ∈ value.parts, part.Proper) :
    Cuts Apart value.literalText.toList (Denoted value.depth value.unsignZeros) := by
  have hkeyword (word : Keyword) (value : Value)
      (hword : ∀ t : Token, t.IsWord word → t.literal? = some value) :
      Cuts Apart word.spelling.toList (Denoted 1 value) := by
    apply (cuts_keyword word).imp
    rintro _ ⟨t, rfl, ht, -⟩
    exact .of_literal (hword t ht)
  cases value with
  | null => exact hkeyword .kwNull .null fun t ht => by simp [Token.literal?, ht]
  | bool b =>
      cases b with
      | true => exact hkeyword .kwTrue (.bool true) fun t ht => by simp [Token.literal?, ht]
      | false => exact hkeyword .kwFalse (.bool false) fun t ht => by simp [Token.literal?, ht]
  | number n => exact cuts_numberText (h (.number n) (List.mem_singleton_self _))
  | string s =>
      apply ((cuts_string s).weaken Apart).imp
      rintro _ ⟨t, rfl, ht, rfl⟩
      exact .of_literal (by simp only [Token.literal?, ht]; rfl)
  | list items =>
      exact (cuts_denotedList (cuts_literalTextItems items fun part hpart =>
        h part (List.mem_cons_of_mem _ hpart))).weaken Apart
  | object entries =>
      have hunique : Dict.Unique (mapEntries dropSign entries) := by
        rw [Dict.Unique, keys_mapEntries]
        exact h (.object entries) List.mem_cons_self
      exact (cuts_denotedObject hunique (cuts_literalTextEntries entries fun part hpart =>
        h part (List.mem_cons_of_mem _ hpart))).weaken Apart

theorem cuts_literalTextItems (items : List Value) (h : ∀ part ∈ partsItems items, part.Proper) :
    Cuts Apart (commaSeparated (literalTextItems items)).toList
      (DenotedItems (depthItems items) (mapItems dropSign items)) := by
  cases items with
  | nil => exact .nil Apart ⟨[], .nil, .noItems, Nat.zero_le _⟩
  | cons item rest =>
      obtain ⟨hitem, hrest⟩ := List.forall_mem_append.1 h
      cases rest with
      | nil =>
          have hdepth : depthItems [item] = item.depth := Nat.max_zero _
          rw [hdepth]
          exact cuts_denotedItem (cuts_literalText item hitem)
      | cons next rest =>
          exact cuts_denotedItems_cons (cuts_literalText item hitem)
            (cuts_literalTextItems (next :: rest) hrest)

theorem cuts_literalTextEntries (entries : List (String × Value))
    (h : ∀ part ∈ partsEntries entries, part.Proper) :
    Cuts Apart (commaSeparated (literalTextEntries entries)).toList
      (DenotedEntries (depthEntries entries) (mapEntries dropSign entries)) := by
  cases entries with
  | nil => exact .nil Apart ⟨[], .nil, .noEntries, Nat.zero_le _⟩
  | cons entry rest =>
      obtain ⟨hentry, hrest⟩ := List.forall_mem_append.1 h
      cases rest with
      | nil =>
          have hdepth : depthEntries [entry] = entry.2.depth := Nat.max_zero _
          rw [hdepth]
          exact cuts_denotedEntry entry.1 (cuts_literalText entry.2 hentry)
      | cons next rest =>
          exact cuts_denotedEntries_cons (cuts_literalText entry.2 hentry)
            (cuts_literalTextEntries (next :: rest) hrest)

end

end Value

/-- The text of a literal is accepted if the value is not nested too deeply. What is read
evaluates, with any tools and in any scope, to an equal value with its keys in the same order, and
leaves everything as it was. -/
theorem literal_evaluates_back {value : Value} (h : ∀ part ∈ value.parts, part.Proper)
    (hdepth : value.depth ≤ maxNesting - 1) (pos : Position) :
    ∃ (e : Expr) (result : Value), Expr.parse (Expr.literal pos value).text = .ok e ∧
      result.eq value = true ∧ result.skeleton = value.skeleton ∧
      ∀ {σ : Type} (host : Host σ) (polls : Nat) (context : Context σ),
        e.run host (polls + 1) context = ⟨.done result, context, []⟩ := by
  obtain ⟨tokens, ⟨e, he, d, hd⟩, htokens⟩ := (value.cuts_literalText h).tokenizes apart_nil
  have hroom : d.room < maxNesting := by
    have hpos : 0 < maxNesting := by decide
    omega
  refine ⟨e, value.unsignZeros, (Expr.parse_of_derivation htokens d).1 hroom,
    value.unsignZeros_eq h, value.skeleton_unsignZeros, fun host polls context => ?_⟩
  rw [Expr.run, Exec.within_succ]
  simp only [Expr.evaluate, Exec.reading, he host]
  rfl

/-- A negative number, a zero with a sign, and a key and a string that need escapes. -/
theorem literal_evaluates_back_nested :
    let items : List Value := [.number (-2.5), .number (-0.0), .string "\\"]
    let value : Value := .object [("é \"\n", .list items), ("", .object [])]
    value.depth = 3 ∧ ∃ (e : Expr) (result : Value),
      Expr.parse (Expr.literal ⟨1, 1⟩ value).text = .ok e ∧ result.eq value = true ∧
      result.skeleton = value.skeleton ∧
      e.run (σ := Unit) ⟨fun _ => none, fun _ => 0⟩ 1 ⟨.empty, (), 0⟩ =
        ⟨.done result, ⟨.empty, (), 0⟩, []⟩ := by
  intro items value
  have hproper : ∀ part ∈ value.parts, part.Proper := by
    have hparts : value.parts = [value, .list items] ++ items ++ [.object []] := rfl
    rw [hparts]
    simp only [List.forall_mem_append, List.forall_mem_cons, items, value]
    refine ⟨⟨⟨?_, trivial, nofun⟩, ?_, ?_, trivial, nofun⟩, ?_, nofun⟩
    · exact (by decide : List.Nodup ["é \"\n", ""])
    · exact (by decide : (-2.5 : Float).isFinite = true)
    · exact (by decide : (-0.0 : Float).isFinite = true)
    · exact List.nodup_nil
  obtain ⟨e, result, hparse, heq, hskeleton, hrun⟩ :=
    literal_evaluates_back hproper (by decide) ⟨1, 1⟩
  exact ⟨rfl, e, result, hparse, heq, hskeleton, hrun _ 0 _⟩

end ToolScript
