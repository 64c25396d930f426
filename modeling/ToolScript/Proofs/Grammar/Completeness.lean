import ToolScript.Proofs.Grammar.Derivation

/-!
# Whatever has a derivation is read

In front of tokens with a derivation a reader takes exactly these tokens and gives the tree
of the derivation, provided that what follows does not go on with the phrase. If the room
does not suffice it complains about the nesting, and about nothing else.

Operator chains and accesses are grouped to the left, whereas their readers go round in a
loop. So the statement about them does not say where the loop ends but where it stands: a
reader in front of such a phrase arrives at the loop that has the phrase as its value.
-/

namespace ToolScript.Grammar

open Reader

section Rows

variable {α : Type} {p q : Prop} {close : Symbol} {trailing : Bool} {item : α → Reader α}
  {a b c : α} {ts us tail rest : List Token} {t : Token}

/-- The symbols that close a row of items. -/
def Closing (close : Symbol) : Prop :=
  close ∈ [Symbol.rightParen, .rightBracket, .rightBrace]

instance : DecidablePred Closing := fun close =>
  inferInstanceAs (Decidable (close ∈ [Symbol.rightParen, .rightBracket, .rightBrace]))

theorem Closing.ends (h : Closing close) : ends (.symbol close) = true := by
  simp only [Closing, List.mem_cons, List.not_mem_nil, or_false] at h
  rcases h with rfl | rfl | rfl <;> rfl

theorem Closing.not_opens (h : Closing close) : opens (.symbol close) = false := by
  simp only [Closing, List.mem_cons, List.not_mem_nil, or_false] at h
  rcases h with rfl | rfl | rfl <;> rfl

theorem Closing.ne_comma (h : Closing close) :
    Token.Kind.symbol close ≠ .symbol .comma := by
  simp only [Closing, List.mem_cons, List.not_mem_nil, or_false] at h
  rcases h with rfl | rfl | rfl <;> decide

theorem Closing.ne_first (h : Closing close) (hts : opens (firstKind ts) = true)
    (rest : List Token) : firstKind (ts ++ rest) ≠ .symbol close := by
  intro heq
  have hopens := opens_append hts rest
  rw [heq, h.not_opens] at hopens
  cases hopens

theorem leads_itemRound_last (hitem : Leads p (item a) ts rest (pure b))
    (hrest : firstKind rest ≠ .symbol .comma) :
    Leads p (itemRound close trailing item a) ts rest (pure (b, false)) := by
  refine (hitem.bind_still ?_).congr ⟨And.left, fun hp => ⟨hp, trivial⟩⟩
  exact (leads_accept_not hrest).look (.refl _ _)

theorem leads_itemRound_comma (close : Symbol) (trailing : Bool)
    (hitem : Leads p (item a) ts ([t] ++ rest) (pure b)) (ht : t.Is .comma) :
    Leads p (itemRound close trailing item a) (ts ++ [t]) rest
      (pure (b, !(trailing && decide (firstKind rest = .symbol close)))) := by
  refine (hitem.bind ?_).congr ⟨And.left, fun hp => ⟨hp, trivial⟩⟩
  apply (leads_accept ht ([] ++ rest)).step
  exact (leads_peekKind rest).look (.refl _ _)

theorem leads_separated_none (hrest : firstKind rest = .symbol close) :
    Leads True (separated close trailing item a) [] rest (pure a) := by
  apply (leads_peekKind rest).look
  simp only [hrest, if_true]
  exact .refl _ _

theorem leads_separated_some (hclose : Closing close) (hts : opens (firstKind ts) = true)
    (rest : List Token) :
    Leads True (separated close trailing item a) [] (ts ++ rest)
      (loop (itemRound close trailing item) a) := by
  apply (leads_peekKind ([] ++ (ts ++ rest))).look
  simp only [List.nil_append, hclose.ne_first hts rest, if_false]
  exact .refl _ _

/-- The last item, with the comma that may stand behind it. -/
theorem leads_row_last {β : Type} {x : β} {xs : List β} (hclose : Closing close)
    (hrest : firstKind rest = .symbol close) (htail : Tail (x :: xs) tail)
    (htrailing : trailing = true ∨ tail = []) (hts : opens (firstKind ts) = true)
    (hitem : ∀ rest, Grammar.ends (firstKind rest) = true → Leads p (item a) ts rest (pure b)) :
    Leads p (separated close trailing item a) (ts ++ tail) rest (pure b) := by
  refine (leads_separated_some hclose (opens_append hts tail) rest).after_look (Leads.loop_last ?_)
  cases htail with
  | none =>
      rw [List.append_nil]
      refine leads_itemRound_last (hitem rest ?_) ?_
      · rw [hrest]
        exact hclose.ends
      · rw [hrest]
        exact hclose.ne_comma
  | @comma comma _ _ hcomma =>
      have hends : Grammar.ends (firstKind (comma :: rest)) = true := by
        rw [firstKind_cons, hcomma]
        rfl
      have htrailing : trailing = true := htrailing.resolve_right (by simp)
      simpa [hrest, htrailing] using
        leads_itemRound_comma close trailing (hitem (comma :: rest) hends) hcomma

/-- An item, a comma, and the items behind it. -/
theorem leads_row_more (hclose : Closing close) (ht : t.Is .comma)
    (hts : opens (firstKind ts) = true) (hus : opens (firstKind us) = true)
    (hitem : Leads p (item a) ts (t :: (us ++ rest)) (pure b))
    (hrow : Leads q (separated close trailing item b) us rest (pure c)) :
    Leads (p ∧ q) (separated close trailing item a) (ts ++ t :: us) rest (pure c) := by
  have hround : Leads p (itemRound close trailing item a) (ts ++ [t]) (us ++ rest)
      (pure (b, true)) := by
    simpa [hclose.ne_first hus rest] using leads_itemRound_comma close trailing hitem ht
  have hrow := (leads_separated_some hclose hus rest).of_look hrow
  have h := (hround.loop_more (by simp)).trans hrow
  rw [List.append_assoc, List.singleton_append] at h
  exact (leads_separated_some hclose (opens_append hts (t :: us)) rest).after_look h

end Rows

/-- Reads the operand of an operator that stands before it. -/
def deeper : Nat → Reader Expr
  | 0 => tooDeep
  | room + 1 => operand room

theorem operand_eq (room : Nat) :
    operand room = operandWith room (deeper room) (expression room) := by
  cases room <;> rfl

/-- What is left to do when a chain of the given level stands at `e`. -/
def finish (room : Nat) : Nat → Expr → Reader Expr
  | 0, e => pure e
  | level + 1, e => loop (chainRound room (level + 1) (chains room (operand room) level)) e

section Rounds

variable {p : Prop} {room level : Nat} {inner : Reader Expr} {a b : Expr} {t u : Token}
  {ts us rest : List Token}

theorem leads_operator (level : Nat) (rest : List Token) :
    Leads True (operator? level) [] rest
      (pure ((BinaryOp.ofKind? (firstKind rest)).filter fun op => op.level = level)) :=
  (leads_peekKind rest).bind_left _

theorem leads_chainRound {op : BinaryOp} (ht : Joins level t.kind op)
    (hinner : Leads p inner us rest (pure b)) :
    Leads (p ∧ (Expr.binary t.position op a b).height ≤ room) (chainRound room level inner a)
      (t :: us) rest (pure (.binary t.position op a b, true)) := by
  have hop : (BinaryOp.ofKind? (firstKind (t :: us ++ rest))).filter
      (fun op => op.level = level) = some op := by
    obtain ⟨hkind, hlevel⟩ := joins_iff.1 ht
    simp [hkind, hlevel]
  apply (leads_operator level (t :: us ++ rest)).look
  rw [hop]
  refine (leads_advance t (us ++ rest)).step (hinner.bind_still ?_)
  exact (leads_bounded room _ rest).bind_left _

theorem leads_chainRound_none (h : Stops level ts rest) :
    Leads True (chainRound room level inner a) [] rest (pure (a, false)) := by
  have hop : (BinaryOp.ofKind? (firstKind rest)).filter (fun op => op.level = level) = none := by
    rw [Option.filter_eq_none_iff]
    intro op hop
    have hlt := h.operator op.level op (joins_iff.2 ⟨hop, rfl⟩)
    simp only [decide_eq_true_eq]
    omega
  apply (leads_operator level ([] ++ rest)).look
  rw [List.nil_append, hop]
  exact .refl _ _

/-- A chain ends where no operator of its level follows. -/
theorem leads_finish (h : Stops level ts rest) (e : Expr) :
    Leads True (finish room level e) [] rest (pure e) := by
  cases level with
  | zero => exact .refl _ _
  | succ level => exact (leads_chainRound_none h).loop_last

theorem leads_index (ht : t.Is .leftBracket) (hu : u.Is .rightBracket)
    (hinner : Leads p inner us ([u] ++ rest) (pure b)) :
    Leads (p ∧ (Expr.index t.position a b).height ≤ room) (accessRound room inner a)
      (t :: (us ++ [u])) rest (pure (.index t.position a b, true)) := by
  apply (leads_peekKind (t :: (us ++ [u]) ++ rest)).look
  simp only [List.cons_append, firstKind_cons, ht]
  refine (leads_advance t (us ++ [u] ++ rest)).step (hinner.bind ?_)
  apply (leads_expect hu _ ([] ++ rest)).step
  exact (leads_bounded room _ rest).bind_left _

theorem leads_member (ht : t.Is .dot) (hu : u.IsName) :
    Leads ((Expr.member t.position a u.lexeme).height ≤ room) (accessRound room inner a)
      [t, u] rest (pure (.member t.position a u.lexeme, true)) := by
  apply (leads_peekKind ([t, u] ++ rest)).look
  simp only [List.cons_append, firstKind_cons, ht]
  apply (leads_advance t ([u] ++ rest)).step
  apply (leads_expectName hu _ ([] ++ rest)).step
  exact (leads_bounded room _ rest).bind_left _

/-- An access ends where neither an index nor a member follows. -/
theorem leads_accessRound_none (hbracket : firstKind rest ≠ .symbol .leftBracket)
    (hdot : firstKind rest ≠ .symbol .dot) :
    Leads True (accessRound room inner a) [] rest (pure (a, false)) := by
  apply (leads_peekKind ([] ++ rest)).look
  rw [List.nil_append]
  split
  · exact absurd ‹_› hbracket
  · exact absurd ‹_› hdot
  · exact .refl _ _

end Rounds

/-- Reads one entry of a row, whose name may be a string with `quoted` set. -/
def entry (quoted : Bool) (expression : Reader Expr) : Dict Expr → Reader (Dict Expr) :=
  if quoted then property expression else argument expression

theorem leads_propertyName {t : Token} (h : t.kind = .identifier ∨ t.kind = .string)
    (rest : List Token) : Leads True propertyName [t] rest (pure t.lexeme) := by
  apply (leads_peekKind ([t] ++ rest)).look
  rw [List.singleton_append, firstKind_cons]
  obtain hname | hstring := h
  · rw [hname]
    exact (leads_advance t _).bind_left _
  · rw [hstring]
    exact (leads_advance t _).bind_left _

theorem leads_entry {p : Prop} {quoted : Bool} {t u : Token} {name : String}
    {inner : Reader Expr} {e : Expr} {ts rest : List Token} (ht : t.label? quoted = some name)
    (hu : u.Is .colon) (hinner : Leads p inner ts rest (pure e)) (dict : Dict Expr) :
    Leads p (entry quoted inner dict) (t :: u :: ts) rest (pure (Dict.insert dict name e)) := by
  have hvalue (expected : Expectation) :
      Leads p (expectSymbol .colon expected >>= fun _ => inner >>= fun value =>
        pure (Dict.insert dict name value)) (u :: ts) rest (pure (Dict.insert dict name e)) :=
    (leads_expect hu expected (ts ++ rest)).step (hinner.bind_left _)
  unfold Token.label? at ht
  cases quoted with
  | false =>
      split at ht
      · next hname =>
          cases ht
          exact (leads_expectName hname _ _).step (hvalue _)
      · cases ht
      · cases ht
  | true =>
      have hlabel : Leads True propertyName [t] (u :: ts ++ rest) (pure name) := by
        split at ht
        · next hname =>
            cases ht
            exact leads_propertyName (.inl hname) _
        · next hstring =>
            cases ht
            exact leads_propertyName (.inr hstring) _
        · cases ht
      exact hlabel.step (hvalue _)

/-- The tokens `ts` are read as the phrase in any room of at least `n`. -/
def Phrase.Reads (ts : List Token) (n : Nat) : Phrase → Prop
  | .chain level e => ∀ room rest, Stops (level - 1) ts rest →
      Leads (n ≤ room) (chains room (operand room) level) ts rest (finish room level e)
  | .accessed e => ∀ room rest, Uncalled ts rest →
      Leads (n ≤ room) (Grammar.accessed room (expression room)) ts rest
        (loop (accessRound room (expression room)) e)
  | .primary e => ∀ room rest, Uncalled ts rest →
      Leads (n ≤ room) (Grammar.primary (expression room)) ts rest (pure e)
  | .items es => ∀ room close trailing tail rest acc, Closing close →
      firstKind rest = .symbol close → Tail es tail → trailing = true ∨ tail = [] →
      Leads (n ≤ room) (separated close trailing (item (expression room)) acc) (ts ++ tail) rest
        (pure (acc ++ es))
  | .entries quoted es => ∀ room close trailing tail rest acc, Closing close →
      firstKind rest = .symbol close → Tail es tail → trailing = true ∨ tail = [] →
      Leads (n ≤ room) (separated close trailing (entry quoted (expression room)) acc)
        (ts ++ tail) rest
        (pure (es.foldl (fun dict entry => Dict.insert dict entry.1 entry.2) acc))

section Rules

variable {m n room level : Nat} {e a b : Expr} {t u : Token} {ts us rest : List Token}

/-- An operator chain is taken whole if nothing goes on with it. -/
theorem leads_chains (h : (Phrase.chain level e).Reads ts n) (hrest : Stops level ts rest) :
    Leads (n ≤ room) (chains room (operand room) level) ts rest (pure e) := by
  have htrans := (h room ([] ++ rest) (hrest.mono (Nat.sub_le level 1))).trans
    (leads_finish hrest e)
  rw [List.append_nil] at htrans
  exact htrans.congr ⟨And.left, fun hn => ⟨hn, trivial⟩⟩

theorem leads_expression (h : (Phrase.chain levels e).Reads ts n)
    (hrest : Stops levels ts rest) :
    Leads (n + 1 ≤ room) (expression room) ts rest (pure e) := by
  cases room with
  | zero => exact (leads_tooDeep ts rest _).congr ⟨False.elim, fun hle => absurd hle (by omega)⟩
  | succ room =>
      exact (leads_chains h hrest).congr ⟨Nat.succ_le_succ, Nat.le_of_succ_le_succ⟩

theorem reads_operand (h : (Phrase.accessed e).Reads ts n) (hts : opens (firstKind ts) = true)
    (hop : UnaryOp.ofKind? (firstKind ts) = none) : (Phrase.chain 0 e).Reads ts n := by
  intro room rest hrest
  change Leads (n ≤ room) (operand room) ts rest (pure e)
  rw [operand_eq]
  apply (leads_peekKind (ts ++ rest)).look
  rw [firstKind_append (ne_nil_of_opens hts), hop]
  have htrans := (h room rest hrest.call).trans
    (leads_accessRound_none hrest.bracket hrest.dot).loop_last
  rw [List.append_nil] at htrans
  exact htrans.congr ⟨And.left, fun hn => ⟨hn, trivial⟩⟩

theorem reads_unary {op : UnaryOp} (ht : Modifies t.kind op)
    (h : (Phrase.chain 0 e).Reads ts n) (hts : opens (firstKind ts) = true) :
    (Phrase.chain 0 (.unary t.position op e)).Reads (t :: ts) (n + 1) := by
  intro room rest hrest
  have hstops : Stops 0 ts rest :=
    hrest.congr (endsInName_cons (ne_nil_of_opens hts) (ht.ne rfl)).symm
  have hinner : Leads (n + 1 ≤ room) (deeper room) ts rest (pure e) := by
    cases room with
    | zero =>
        exact (leads_tooDeep ts rest _).congr ⟨False.elim, fun hle => absurd hle (by omega)⟩
    | succ room =>
        exact (leads_chains h hstops).congr ⟨Nat.succ_le_succ, Nat.le_of_succ_le_succ⟩
  change Leads (n + 1 ≤ room) (operand room) (t :: ts) rest (pure _)
  rw [operand_eq]
  apply (leads_peekKind (t :: ts ++ rest)).look
  rw [List.cons_append, firstKind_cons, modifies_iff.1 ht]
  exact (leads_advance t (ts ++ rest)).step (hinner.bind_left _)

theorem reads_tighter (h : (Phrase.chain level e).Reads ts n) :
    (Phrase.chain (level + 1) e).Reads ts n := by
  intro room rest hrest
  exact (leads_chains h hrest).bind_left _

/-- An operator stops the chains of the levels that bind tighter. -/
theorem stops_operator {op : BinaryOp} (ht : Joins (level + 1) t.kind op) :
    Stops level ts (t :: rest) where
  bracket := ht.ne rfl
  dot := ht.ne rfl
  operator := by
    intro l other hother
    obtain ⟨hkind, hlevel⟩ := joins_iff.1 ht
    obtain ⟨hkind', hlevel'⟩ := joins_iff.1 hother
    rw [firstKind_cons, hkind] at hkind'
    cases hkind'
    omega
  call heq := absurd heq (ht.ne rfl)

theorem reads_binary {op : BinaryOp} (ha : (Phrase.chain (level + 1) a).Reads ts m)
    (ht : Joins (level + 1) t.kind op)
    (hb : (Phrase.chain level b).Reads us n) (hus : opens (firstKind us) = true) :
    (Phrase.chain (level + 1) (.binary t.position op a b)).Reads (ts ++ t :: us)
      (max (max m n) (max a.height b.height + 1)) := by
  intro room rest hrest
  have hstops : Stops level us rest :=
    hrest.congr (endsInName_append ts (ne_nil_of_opens hus) (ht.ne rfl)).symm
  have hround : Leads _ (finish room (level + 1) a) (t :: us) rest
      (finish room (level + 1) (.binary t.position op a b)) :=
    (leads_chainRound ht (leads_chains hb hstops)).loop_more (by simp)
  refine ((ha room (t :: us ++ rest) (stops_operator ht)).trans hround).congr ?_
  simp only [Expr.height]
  omega

theorem reads_primary (h : (Phrase.primary e).Reads ts n) : (Phrase.accessed e).Reads ts n := by
  intro room rest hrest
  exact (h room rest hrest).bind_left _

theorem uncalled_of_ne (h : firstKind rest ≠ .symbol .leftParen) : Uncalled ts rest :=
  fun heq => absurd heq h

theorem reads_index (ha : (Phrase.accessed a).Reads ts m) (ht : t.Is .leftBracket)
    (hb : (Phrase.chain levels b).Reads us n) (hu : u.Is .rightBracket) :
    (Phrase.accessed (.index t.position a b)).Reads (ts ++ t :: (us ++ [u]))
      (max (max m (n + 1)) (max a.height b.height + 1)) := by
  intro room rest hrest
  have hends : ends (firstKind ([u] ++ rest)) = true := by
    rw [List.singleton_append, firstKind_cons, hu]
    rfl
  have hround : Leads _ (loop (accessRound room (expression room)) a) (t :: (us ++ [u])) rest
      (loop (accessRound room (expression room)) (.index t.position a b)) :=
    (leads_index ht hu (leads_expression hb (.of_ends hends))).loop_more (by simp)
  have hopen : Uncalled ts (t :: (us ++ [u]) ++ rest) := by
    apply uncalled_of_ne
    rw [List.cons_append, firstKind_cons, ht]
    decide
  refine ((ha room _ hopen).trans hround).congr ?_
  simp only [Expr.height]
  omega

theorem reads_member (ha : (Phrase.accessed a).Reads ts m) (ht : t.Is .dot) (hu : u.IsName) :
    (Phrase.accessed (.member t.position a u.lexeme)).Reads (ts ++ [t, u])
      (max m (a.height + 1)) := by
  intro room rest hrest
  have hround : Leads _ (loop (accessRound room (expression room)) a) [t, u] rest
      (loop (accessRound room (expression room)) (.member t.position a u.lexeme)) :=
    (leads_member ht hu).loop_more (by simp)
  have hopen : Uncalled ts ([t, u] ++ rest) := by
    apply uncalled_of_ne
    rw [List.cons_append, firstKind_cons, ht]
    decide
  refine ((ha room _ hopen).trans hround).congr ?_
  simp only [Expr.height]
  omega

/-- The first token of a primary expression is taken, and it says how to go on. -/
theorem leads_primary {p : Prop} {inner next : Reader Expr}
    (h : Leads p (primaryFrom inner t) ts rest next) :
    Leads p (primary inner) (t :: ts) rest next := by
  have hpeek : Leads True peek [] (t :: ts ++ rest) (pure t) :=
    ⟨fun _ _ _ _ => rfl, fun hfalse => absurd trivial hfalse⟩
  exact hpeek.look ((leads_advance t (ts ++ rest)).step h)

theorem primaryFrom_literal {value : Value} (inner : Reader Expr)
    (ht : t.literal? = some value) :
    primaryFrom inner t = pure (.literal t.position value) := by
  unfold Token.literal? at ht
  split at ht
  · next hkind =>
      cases ht
      simp only [primaryFrom, hkind]
  · next hkind =>
      cases ht
      simp only [primaryFrom, hkind]
  · next hkind =>
      cases ht
      simp only [primaryFrom, hkind]
  · next hkind =>
      obtain ⟨n, hn, rfl⟩ := Option.map_eq_some_iff.1 ht
      simp only [primaryFrom, hkind, hn]
  · next hkind =>
      cases ht
      simp only [primaryFrom, hkind]
  · cases ht

theorem reads_literal {value : Value} (ht : t.literal? = some value) :
    (Phrase.primary (.literal t.position value)).Reads [t] 0 := by
  intro room rest _
  apply leads_primary
  rw [primaryFrom_literal _ ht]
  exact (Leads.refl _ _).congr ⟨fun _ => Nat.zero_le room, fun _ => trivial⟩

theorem reads_ref (ht : t.IsName) :
    (Phrase.primary (.ref t.position t.lexeme)).Reads [t] 0 := by
  intro room rest hrest
  have hparen : firstKind rest ≠ .symbol .leftParen := by
    intro heq
    have hname := hrest heq
    simp [endsInName, ht] at hname
  apply leads_primary
  simp only [primaryFrom, ht]
  apply (leads_accept_not hparen).look
  exact (Leads.refl _ _).congr ⟨fun _ => Nat.zero_le room, fun _ => trivial⟩

theorem reads_now {v : Token} (ht : t.IsWord .kwNow) (hu : u.Is .leftParen)
    (hv : v.Is .rightParen) :
    (Phrase.primary (.apply t.position "NOW" [])).Reads [t, u, v] 0 := by
  intro room rest _
  apply leads_primary
  simp only [primaryFrom, ht]
  apply (leads_expect hu _ ([v] ++ rest)).step
  apply (leads_expect hv _ ([] ++ rest)).step
  exact (Leads.refl _ _).congr ⟨fun _ => Nat.zero_le room, fun _ => trivial⟩

theorem leads_callArguments {es : List Expr} (h : (Phrase.items es).Reads ts n)
    (hu : u.Is .rightParen) :
    Leads (n ≤ room) (callArguments (expression room)) (ts ++ [u]) rest (pure es) := by
  have hitems := h room .rightParen false [] ([u] ++ rest) [] (by decide) hu (.none es)
    (.inr rfl)
  rw [List.append_nil, List.nil_append] at hitems
  refine (hitems.bind ?_).congr ⟨And.left, fun hn => ⟨hn, trivial⟩⟩
  exact (leads_expect hu _ ([] ++ rest)).step (.refl _ _)

theorem reads_apply {f : String} {v : Token} {es : List Expr} (ht : t.callee? = some f)
    (hu : u.Is .leftParen) (h : (Phrase.items es).Reads ts n) (hv : v.Is .rightParen) :
    (Phrase.primary (.apply t.position f es)).Reads (t :: u :: (ts ++ [v])) n := by
  intro room rest _
  have hargs : Leads (n ≤ room) (callArguments (expression room)) (ts ++ [v]) rest (pure es) :=
    leads_callArguments h hv
  apply leads_primary
  unfold Token.callee? at ht
  split at ht
  · next hkind =>
      cases ht
      simp only [primaryFrom, hkind]
      exact (leads_accept hu (ts ++ [v] ++ rest)).step (hargs.bind_left _)
  · next hkind =>
      cases ht
      simp only [primaryFrom, hkind]
      exact (leads_expect hu _ (ts ++ [v] ++ rest)).step (hargs.bind_left _)
  · cases ht

theorem leads_invocation {f v : Token} {es : List (String × Expr)} (hf : f.IsName)
    (hu : u.Is .leftBrace) (h : (Phrase.entries false es).Reads ts n) (hv : v.Is .rightBrace) :
    Leads (n ≤ room) (invocation (expression room)) (f :: u :: (ts ++ [v])) rest
      (pure (f.lexeme, merged es)) := by
  rw [merged_eq]
  have hentries := h room .rightBrace false [] ([v] ++ rest) [] (by decide) hv (.none es)
    (.inr rfl)
  rw [List.append_nil] at hentries
  refine (leads_expectName hf _ _).step ((leads_expect hu _ _).step ?_)
  refine (hentries.bind ?_).congr ⟨And.left, fun hn => ⟨hn, trivial⟩⟩
  exact (leads_expect hv _ ([] ++ rest)).step (.refl _ _)

theorem reads_tool {f v : Token} {es : List (String × Expr)} (ht : t.IsWord .kwCall)
    (hf : f.IsName) (hu : u.Is .leftBrace) (h : (Phrase.entries false es).Reads ts n)
    (hv : v.Is .rightBrace) :
    (Phrase.primary (.tool t.position f.lexeme (merged es))).Reads
      (t :: f :: u :: (ts ++ [v])) n := by
  intro room rest _
  apply leads_primary
  simp only [primaryFrom, ht]
  exact (leads_invocation hf hu h hv).bind_left _

theorem reads_group (ht : t.Is .leftParen) (h : (Phrase.chain levels e).Reads ts n)
    (hu : u.Is .rightParen) : (Phrase.primary e).Reads (t :: (ts ++ [u])) (n + 1) := by
  intro room rest _
  have hends : ends (firstKind ([u] ++ rest)) = true := by
    rw [List.singleton_append, firstKind_cons, hu]
    rfl
  apply leads_primary
  simp only [primaryFrom, ht]
  refine ((leads_expression h (.of_ends hends)).bind ?_).congr
    ⟨And.left, fun hn => ⟨hn, trivial⟩⟩
  exact (leads_expect hu _ ([] ++ rest)).step (.refl _ _)

theorem reads_list {es : List Expr} {tail : List Token} (ht : t.Is .leftBracket)
    (h : (Phrase.items es).Reads ts n) (htail : Tail es tail) (hu : u.Is .rightBracket) :
    (Phrase.primary (.list t.position es)).Reads (t :: (ts ++ tail ++ [u])) n := by
  intro room rest _
  have hitems := h room .rightBracket true tail ([u] ++ rest) [] (by decide) hu htail (.inl rfl)
  rw [List.nil_append] at hitems
  apply leads_primary
  simp only [primaryFrom, ht]
  refine (hitems.bind ?_).congr ⟨And.left, fun hn => ⟨hn, trivial⟩⟩
  exact (leads_expect hu _ ([] ++ rest)).step (.refl _ _)

theorem reads_object {es : List (String × Expr)} {tail : List Token} (ht : t.Is .leftBrace)
    (h : (Phrase.entries true es).Reads ts n) (htail : Tail es tail) (hu : u.Is .rightBrace) :
    (Phrase.primary (.object t.position (merged es))).Reads (t :: (ts ++ tail ++ [u])) n := by
  intro room rest _
  rw [merged_eq]
  have hentries := h room .rightBrace true tail ([u] ++ rest) [] (by decide) hu htail (.inl rfl)
  apply leads_primary
  simp only [primaryFrom, ht]
  refine (hentries.bind ?_).congr ⟨And.left, fun hn => ⟨hn, trivial⟩⟩
  exact (leads_expect hu _ ([] ++ rest)).step (.refl _ _)

theorem reads_noItems : (Phrase.items []).Reads [] 0 := by
  intro room close trailing tail rest acc _ hrest htail _
  cases htail
  simp only [List.append_nil]
  exact (leads_separated_none hrest).congr ⟨fun _ => Nat.zero_le room, fun _ => trivial⟩

theorem leads_item (h : (Phrase.chain levels e).Reads ts n) (acc : List Expr)
    (hrest : ends (firstKind rest) = true) :
    Leads (n + 1 ≤ room) (item (expression room) acc) ts rest (pure (acc ++ [e])) :=
  (leads_expression h (.of_ends hrest)).bind_left _

theorem reads_lastItem (h : (Phrase.chain levels e).Reads ts n)
    (hts : opens (firstKind ts) = true) : (Phrase.items [e]).Reads ts (n + 1) := by
  intro room close trailing tail rest acc hclose hrest htail htrailing
  exact leads_row_last hclose hrest htail htrailing hts fun _ => leads_item h acc

theorem reads_moreItems {f : Expr} {es : List Expr} (h : (Phrase.chain levels e).Reads ts m)
    (hts : opens (firstKind ts) = true) (ht : t.Is .comma)
    (h' : (Phrase.items (f :: es)).Reads us n) (hus : opens (firstKind us) = true) :
    (Phrase.items (e :: f :: es)).Reads (ts ++ t :: us) (max (m + 1) n) := by
  intro room close trailing tail rest acc hclose hrest htail htrailing
  have htail' : Tail (f :: es) tail := by
    cases htail with
    | none => exact .none _
    | comma _ _ hcomma => exact .comma f es hcomma
  have hends : ends (firstKind (t :: (us ++ tail ++ rest))) = true := by
    rw [firstKind_cons, ht]
    rfl
  have hrow := h' room close trailing tail rest (acc ++ [e]) hclose hrest htail' htrailing
  have hmore := leads_row_more hclose ht hts (opens_append hus tail) (leads_item h acc hends) hrow
  rw [List.append_assoc acc, List.singleton_append] at hmore
  rw [List.append_assoc ts, List.cons_append]
  exact hmore.congr (by omega)

theorem reads_noEntries {quoted : Bool} : (Phrase.entries quoted []).Reads [] 0 := by
  intro room close trailing tail rest acc _ hrest htail _
  cases htail
  rw [List.append_nil]
  exact (leads_separated_none hrest).congr ⟨fun _ => Nat.zero_le room, fun _ => trivial⟩

theorem reads_lastEntry {quoted : Bool} {name : String} (ht : t.label? quoted = some name)
    (hu : u.Is .colon) (h : (Phrase.chain levels e).Reads ts n) :
    (Phrase.entries quoted [(name, e)]).Reads (t :: u :: ts) (n + 1) := by
  intro room close trailing tail rest acc hclose hrest htail htrailing
  exact leads_row_last hclose hrest htail htrailing (opens_of_label ht) fun rest hends =>
    leads_entry ht hu (leads_expression h (.of_ends hends)) acc

theorem reads_moreEntries {quoted : Bool} {name : String} {v : Token} {f : String × Expr}
    {es : List (String × Expr)} (ht : t.label? quoted = some name) (hu : u.Is .colon)
    (h : (Phrase.chain levels e).Reads ts m) (hv : v.Is .comma)
    (h' : (Phrase.entries quoted (f :: es)).Reads us n) (hus : opens (firstKind us) = true) :
    (Phrase.entries quoted ((name, e) :: f :: es)).Reads (t :: u :: (ts ++ v :: us))
      (max (m + 1) n) := by
  intro room close trailing tail rest acc hclose hrest htail htrailing
  have htail' : Tail (f :: es) tail := by
    cases htail with
    | none => exact .none _
    | comma _ _ hcomma => exact .comma f es hcomma
  have hends : ends (firstKind (v :: (us ++ tail ++ rest))) = true := by
    rw [firstKind_cons, hv]
    rfl
  have hfirst : opens (firstKind (t :: u :: ts)) = true := opens_of_label ht
  have hvalue : Leads (m + 1 ≤ room) (expression room) ts _ (pure e) :=
    leads_expression h (.of_ends hends)
  have hrow := h' room close trailing tail rest (Dict.insert acc name e) hclose hrest htail'
    htrailing
  have hmore := leads_row_more hclose hv hfirst (opens_append hus tail)
    (leads_entry ht hu hvalue acc) hrow
  have heq : t :: u :: (ts ++ v :: us) ++ tail = t :: u :: ts ++ v :: (us ++ tail) := by simp
  rw [heq]
  exact hmore.congr (by omega)

end Rules

/-- Tokens are read as the phrase that they have a derivation of. -/
theorem Derivation.reads {p : Phrase} {ts : List Token} (d : Derivation p ts) :
    p.Reads ts d.room := by
  induction d with
  | operand d ih => exact reads_operand ih (d.opens_first rfl) (d.unary_none rfl)
  | unary ht d ih => exact reads_unary ht ih (d.opens_first rfl)
  | tighter d ih => exact reads_tighter ih
  | binary d ht d' ih ih' => exact reads_binary ih ht ih' (d'.opens_first rfl)
  | primary d ih => exact reads_primary ih
  | index d ht d' hu ih ih' => exact reads_index ih ht ih' hu
  | member d ht hu ih => exact reads_member ih ht hu
  | literal ht => exact reads_literal ht
  | ref ht => exact reads_ref ht
  | now ht hu hv => exact reads_now ht hu hv
  | apply ht hu d hv ih => exact reads_apply ht hu ih hv
  | tool ht hf hu d hv ih => exact reads_tool ht hf hu ih hv
  | group ht d hu ih => exact reads_group ht ih hu
  | list ht d htail hu ih => exact reads_list ht ih htail hu
  | object ht d htail hu ih => exact reads_object ht ih htail hu
  | noItems => exact reads_noItems
  | lastItem d ih => exact reads_lastItem ih (d.opens_first rfl)
  | moreItems d ht d' ih ih' =>
      exact reads_moreItems ih (d.opens_first rfl) ht ih' (d'.opens_first rfl)
  | noEntries => exact reads_noEntries
  | lastEntry ht hu d ih => exact reads_lastEntry ht hu ih
  | moreEntries ht hu d hv d' ih ih' =>
      exact reads_moreEntries ht hu ih hv ih' (d'.opens_first rfl)

/-- An expression is read in any room that exceeds the one its derivation takes. -/
theorem Derivation.leads_expression {e : Expr} {ts rest : List Token}
    (d : Derivation (.chain levels e) ts) (room : Nat) (hrest : Stops levels ts rest) :
    Leads (d.room < room) (expression room) ts rest (pure e) :=
  Grammar.leads_expression d.reads hrest

end ToolScript.Grammar
