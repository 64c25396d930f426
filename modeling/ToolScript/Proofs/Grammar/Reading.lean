import ToolScript.Grammar.Statement

/-!
# Laws of readers

A reader is described from two sides. `Leads fits reader taken rest next` says what it does
in front of given tokens: if `fits` holds it takes exactly `taken` and goes on as `next`, and
otherwise it complains about the nesting and about nothing else. `Stream.Taken s ts t` says
what a success amounts to: `ts` are the tokens between the streams `s` and `t`.

Both compose along `>>=`, and `loop` follows its rounds.
-/

namespace ToolScript.Grammar

variable {α β : Type}

/-- The kind of the first token; behind the last one the input ends. -/
def firstKind : List Token → Token.Kind
  | [] => .endOfInput
  | token :: _ => token.kind

@[simp] theorem firstKind_nil : firstKind [] = .endOfInput := rfl

@[simp] theorem firstKind_cons (token : Token) (tokens : List Token) :
    firstKind (token :: tokens) = token.kind := rfl

theorem Stream.next_kind {s : Stream} (hs : s.stop.kind = .endOfInput) :
    s.next.kind = firstKind s.ahead := by
  unfold Stream.next
  cases s.ahead with
  | nil => exact hs
  | cons token rest => rfl

namespace Reader

/-- Binding runs the second reader where the first one stops. -/
theorem bind_ok {x : Reader α} {f : α → Reader β} {s t : Stream} {a : α}
    (h : x s = .ok (a, t)) : (x >>= f) s = f a t := by
  change Except.bind (x s) _ = _
  rw [h]
  rfl

theorem bind_error {x : Reader α} {f : α → Reader β} {s : Stream} {fault : Fault}
    (h : x s = .error fault) : (x >>= f) s = .error fault := by
  change Except.bind (x s) _ = _
  rw [h]
  rfl

theorem bind_eq_ok_iff {x : Reader α} {f : α → Reader β} {s u : Stream} {b : β} :
    (x >>= f) s = .ok (b, u) ↔ ∃ a t, x s = .ok (a, t) ∧ f a t = .ok (b, u) := by
  constructor
  · intro h
    cases hx : x s with
    | error fault =>
        rw [bind_error hx] at h
        cases h
    | ok result =>
        rw [bind_ok hx] at h
        exact ⟨result.1, result.2, rfl, h⟩
  · rintro ⟨a, t, hx, hf⟩
    rw [bind_ok hx, hf]

@[simp] theorem pure_eq_ok_iff {a b : α} {s t : Stream} :
    (pure a : Reader α) s = .ok (b, t) ↔ b = a ∧ t = s := by
  change Except.ok (a, s) = Except.ok (b, t) ↔ _
  simp [eq_comm]

theorem map_eq_ok_iff {x : Reader α} {f : α → β} {s t : Stream} {b : β} :
    (f <$> x) s = .ok (b, t) ↔ ∃ a, x s = .ok (a, t) ∧ b = f a := by
  change (x >>= fun a => pure (f a)) s = .ok (b, t) ↔ _
  rw [bind_eq_ok_iff]
  constructor
  · rintro ⟨a, u, hx, hpure⟩
    obtain ⟨rfl, rfl⟩ := pure_eq_ok_iff.1 hpure
    exact ⟨a, hx, rfl⟩
  · rintro ⟨a, hx, rfl⟩
    exact ⟨a, t, hx, rfl⟩

theorem loop_error {round : α → Reader (α × Bool)} {a : α} {s : Stream} {fault : Fault}
    (h : round a s = .error fault) : loop round a s = .error fault := by
  rw [loop, h]

theorem loop_done {round : α → Reader (α × Bool)} {a b : α} {s t : Stream}
    (h : round a s = .ok ((b, false), t)) : loop round a s = .ok (b, t) := by
  rw [loop, h]
  simp

theorem loop_again {round : α → Reader (α × Bool)} {a b : α} {s t : Stream}
    (h : round a s = .ok ((b, true), t)) (hlt : t.ahead.length < s.ahead.length) :
    loop round a s = loop round b t := by
  rw [loop, h]
  simp [hlt]

end Reader

open Reader

/-- In front of `taken ++ rest` the reader takes `taken` and goes on as `next` if `fits`
holds, and otherwise it complains about the nesting. -/
structure Leads (fits : Prop) (reader : Reader α) (taken rest : List Token)
    (next : Reader α) : Prop where
  reads : fits → ∀ last stop, stop.kind = .endOfInput →
    reader ⟨last, taken ++ rest, stop⟩ = next ⟨taken.getLastD last, rest, stop⟩
  refuses : ¬ fits → ∀ last stop, stop.kind = .endOfInput →
    ∃ found, reader ⟨last, taken ++ rest, stop⟩ = .error ⟨.lessNesting, found⟩

namespace Leads

variable {p q : Prop} {x y z : Reader α} {ts us rest : List Token} {a b : α}

theorem refl (x : Reader α) (rest : List Token) : Leads True x [] rest x where
  reads _ _ _ _ := rfl
  refuses h := absurd trivial h

theorem congr (h : Leads p x ts rest y) (hpq : p ↔ q) : Leads q x ts rest y where
  reads hq := h.reads (hpq.2 hq)
  refuses hq := h.refuses fun hp => hq (hpq.1 hp)

theorem trans (h : Leads p x ts (us ++ rest) y) (h' : Leads q y us rest z) :
    Leads (p ∧ q) x (ts ++ us) rest z where
  reads := by
    rintro ⟨hp, hq⟩ last stop hstop
    have hlast : (ts ++ us).getLastD last = us.getLastD (ts.getLastD last) := by
      simp [List.getLast?_append, Option.getD_or]
    rw [List.append_assoc, h.reads hp last stop hstop, h'.reads hq _ stop hstop, hlast]
  refuses := by
    intro hpq last stop hstop
    rw [List.append_assoc]
    by_cases hp : p
    · rw [h.reads hp last stop hstop]
      exact h'.refuses (fun hq => hpq ⟨hp, hq⟩) _ stop hstop
    · exact h.refuses hp last stop hstop

/-- What the first part of a sequence does, the sequence does. -/
theorem bind_left (h : Leads p x ts rest (pure a)) (f : α → Reader β) :
    Leads p (x >>= f) ts rest (f a) where
  reads hp last stop hstop := bind_ok (h.reads hp last stop hstop)
  refuses hp last stop hstop := by
    obtain ⟨found, hx⟩ := h.refuses hp last stop hstop
    exact ⟨found, bind_error hx⟩

theorem map (h : Leads p x ts rest (pure a)) (f : α → β) :
    Leads p (f <$> x) ts rest (pure (f a)) :=
  h.bind_left fun a => pure (f a)

theorem bind {f : α → Reader β} {next : Reader β} (h : Leads p x ts (us ++ rest) (pure a))
    (h' : Leads q (f a) us rest next) : Leads (p ∧ q) (x >>= f) (ts ++ us) rest next :=
  (h.bind_left f).trans h'

/-- A sequence whose second part takes nothing. -/
theorem bind_still {f : α → Reader β} {next : Reader β} (h : Leads p x ts rest (pure a))
    (h' : Leads q (f a) [] rest next) : Leads (p ∧ q) (x >>= f) ts rest next := by
  have hbind := (h.bind_left f).trans h'
  rwa [List.append_nil] at hbind

/-- A sequence whose first part takes one token without conditions. -/
theorem step {token : Token} {f : α → Reader β} {next : Reader β}
    (h : Leads True x [token] (us ++ rest) (pure a)) (h' : Leads q (f a) us rest next) :
    Leads q (x >>= f) (token :: us) rest next :=
  (h.bind h').congr ⟨And.right, And.intro trivial⟩

/-- A sequence whose first part only looks ahead. -/
theorem look {f : α → Reader β} {next : Reader β} (h : Leads True x [] (us ++ rest) (pure a))
    (h' : Leads q (f a) us rest next) : Leads q (x >>= f) us rest next :=
  (h.bind h').congr ⟨And.right, And.intro trivial⟩

/-- A reader that first only looks ahead and goes on as another one does what that does. -/
theorem after_look (h : Leads True x [] (ts ++ rest) y) (h' : Leads p y ts rest z) :
    Leads p x ts rest z :=
  (h.trans h').congr ⟨And.right, And.intro trivial⟩

/-- A reader does what another one does that first only looks ahead and goes on as it. -/
theorem of_look (h : Leads True x [] (ts ++ rest) y) (h' : Leads p x ts rest z) :
    Leads p y ts rest z where
  reads hp last stop hstop :=
    (h.reads trivial last stop hstop).symm.trans (h'.reads hp last stop hstop)
  refuses hp last stop hstop := by
    obtain ⟨found, hx⟩ := h'.refuses hp last stop hstop
    exact ⟨found, (h.reads trivial last stop hstop).symm.trans hx⟩

theorem loop_last {round : α → Reader (α × Bool)}
    (h : Leads p (round a) ts rest (pure (b, false))) :
    Leads p (loop round a) ts rest (pure b) where
  reads hp last stop hstop := loop_done (h.reads hp last stop hstop)
  refuses hp last stop hstop := by
    obtain ⟨found, hround⟩ := h.refuses hp last stop hstop
    exact ⟨found, loop_error hround⟩

theorem loop_more {round : α → Reader (α × Bool)}
    (h : Leads p (round a) ts rest (pure (b, true))) (hts : ts ≠ []) :
    Leads p (loop round a) ts rest (loop round b) where
  reads hp last stop hstop := by
    apply loop_again (h.reads hp last stop hstop)
    have hpos := List.length_pos_iff.2 hts
    simp only [List.length_append]
    omega
  refuses hp last stop hstop := by
    obtain ⟨found, hround⟩ := h.refuses hp last stop hstop
    exact ⟨found, loop_error hround⟩

end Leads

section Tokens

variable {token : Token} {rest : List Token} {kind : Token.Kind}

theorem leads_peekKind (rest : List Token) :
    Leads True peekKind [] rest (pure (firstKind rest)) where
  reads := by
    intro _ last stop hstop
    have hkind := Stream.next_kind (s := ⟨last, rest, stop⟩) hstop
    change Except.ok ((⟨last, rest, stop⟩ : Stream).next.kind, _) = _
    rw [hkind]
    rfl
  refuses h := absurd trivial h

theorem leads_advance (token : Token) (rest : List Token) :
    Leads True advance [token] rest (pure token) where
  reads _ _ _ _ := rfl
  refuses h := absurd trivial h

theorem leads_expect (h : token.kind = kind) (expected : Expectation) (rest : List Token) :
    Leads True (expect kind expected) [token] rest (pure token) := by
  apply (leads_peekKind ([token] ++ rest)).look
  simp only [List.singleton_append, firstKind_cons, h, if_true]
  exact leads_advance token rest

theorem leads_expectName (h : token.kind = .identifier) (expected : Expectation)
    (rest : List Token) :
    Leads True (expectName expected) [token] rest (pure token.lexeme) :=
  (leads_expect h expected rest).bind_left _

theorem leads_accept (h : token.kind = kind) (rest : List Token) :
    Leads True (accept kind) [token] rest (pure true) := by
  apply (leads_peekKind ([token] ++ rest)).look
  simp only [List.singleton_append, firstKind_cons, h, if_true]
  exact (leads_advance token rest).bind_left _

theorem leads_accept_not (h : firstKind rest ≠ kind) :
    Leads True (accept kind) [] rest (pure false) := by
  apply (leads_peekKind rest).look
  simp only [h, if_false]
  exact .refl _ _

theorem leads_tooDeep (taken rest : List Token) (next : Reader α) :
    Leads False tooDeep taken rest next where
  reads h := h.elim
  refuses _ _ _ _ := ⟨_, rfl⟩

theorem leads_bounded (room : Nat) (e : Expr) (rest : List Token) :
    Leads (e.height ≤ room) (bounded room e) [] rest (pure e) where
  reads h last stop hstop := by
    simp only [bounded, h, if_true]
    rfl
  refuses h last stop hstop := by
    simp only [bounded, h, if_false]
    exact ⟨last, rfl⟩

end Tokens

/-- The end of input closes the stream. -/
def Stream.Closed (s : Stream) : Prop :=
  s.stop.kind = .endOfInput

/-- Between the streams `s` and `t` the tokens `ts` were taken. -/
structure Stream.Taken (s : Stream) (ts : List Token) (t : Stream) : Prop where
  ahead : s.ahead = ts ++ t.ahead
  stop : t.stop = s.stop

namespace Stream

theorem Taken.refl (s : Stream) : s.Taken [] s := ⟨rfl, rfl⟩

theorem Taken.trans {s t u : Stream} {ts us : List Token} (h : s.Taken ts t)
    (h' : t.Taken us u) : s.Taken (ts ++ us) u where
  ahead := by rw [h.ahead, h'.ahead, List.append_assoc]
  stop := h'.stop.trans h.stop

theorem Taken.closed {s t : Stream} {ts : List Token} (h : s.Taken ts t) (hs : s.Closed) :
    t.Closed := by
  unfold Closed
  rw [h.stop]
  exact hs

theorem Taken.length_lt {s t : Stream} {ts : List Token} (h : s.Taken ts t) (hts : ts ≠ []) :
    t.ahead.length < s.ahead.length := by
  have hpos := List.length_pos_iff.2 hts
  rw [h.ahead, List.length_append]
  omega

end Stream

/-- Whenever the reader gives `a`, the tokens it took, those it left, and `a` are as `P`
says. -/
def Sound (reader : Reader α) (P : List Token → List Token → α → Prop) : Prop :=
  ∀ s t a, s.Closed → reader s = .ok (a, t) → ∃ ts, s.Taken ts t ∧ P ts t.ahead a

section Successes

variable {s t : Stream} {kind : Token.Kind} {expected : Expectation}

theorem peekKind_eq_ok (hs : s.Closed) (h : peekKind s = .ok (kind, t)) :
    kind = firstKind s.ahead ∧ t = s := by
  cases h
  exact ⟨Stream.next_kind hs, rfl⟩

theorem advance_eq_ok {token : Token} (hahead : firstKind s.ahead ≠ .endOfInput)
    (h : advance s = .ok (token, t)) : s.Taken [token] t ∧ token.kind = firstKind s.ahead := by
  unfold advance at h
  cases hs : s.ahead with
  | nil =>
      rw [hs] at hahead
      exact absurd rfl hahead
  | cons first rest =>
      rw [hs] at h
      cases h
      exact ⟨⟨hs, rfl⟩, rfl⟩

theorem expect_eq_ok {token : Token} (hs : s.Closed) (hkind : kind ≠ .endOfInput)
    (h : expect kind expected s = .ok (token, t)) : s.Taken [token] t ∧ token.kind = kind := by
  obtain ⟨next, s', hpeek, h⟩ := bind_eq_ok_iff.1 h
  obtain ⟨rfl, rfl⟩ := peekKind_eq_ok hs hpeek
  split at h
  · next heq =>
      obtain ⟨htaken, hk⟩ := advance_eq_ok (heq ▸ hkind) h
      exact ⟨htaken, hk.trans heq⟩
  · cases h

theorem expectSymbol_eq_ok {token : Token} {sign : Symbol} (hs : s.Closed)
    (h : expectSymbol sign expected s = .ok (token, t)) :
    s.Taken [token] t ∧ token.kind = .symbol sign :=
  expect_eq_ok hs (by simp) h

theorem expectKeyword_eq_ok {token : Token} {word : Keyword} (hs : s.Closed)
    (h : expectKeyword word s = .ok (token, t)) :
    s.Taken [token] t ∧ token.kind = .keyword word :=
  expect_eq_ok hs (by simp) h

theorem expectName_eq_ok {name : String} (hs : s.Closed)
    (h : expectName expected s = .ok (name, t)) :
    ∃ token, s.Taken [token] t ∧ token.kind = .identifier ∧ name = token.lexeme := by
  obtain ⟨token, s', htoken, h⟩ := bind_eq_ok_iff.1 h
  obtain ⟨htaken, hk⟩ := expect_eq_ok hs (by simp) htoken
  obtain ⟨rfl, rfl⟩ := pure_eq_ok_iff.1 h
  exact ⟨token, htaken, hk, rfl⟩

theorem accept_eq_ok {found : Bool} (hs : s.Closed) (hkind : kind ≠ .endOfInput)
    (h : accept kind s = .ok (found, t)) :
    (found = true ∧ ∃ token, s.Taken [token] t ∧ token.kind = kind) ∨
      (found = false ∧ t = s ∧ firstKind s.ahead ≠ kind) := by
  obtain ⟨next, s', hpeek, h⟩ := bind_eq_ok_iff.1 h
  obtain ⟨rfl, rfl⟩ := peekKind_eq_ok hs hpeek
  split at h
  · next heq =>
      obtain ⟨token, s', hadvance, h⟩ := bind_eq_ok_iff.1 h
      obtain ⟨htaken, hk⟩ := advance_eq_ok (heq ▸ hkind) hadvance
      obtain ⟨rfl, rfl⟩ := pure_eq_ok_iff.1 h
      exact .inl ⟨rfl, token, htaken, hk.trans heq⟩
  · next hne =>
      obtain ⟨rfl, rfl⟩ := pure_eq_ok_iff.1 h
      exact .inr ⟨rfl, rfl, hne⟩

theorem bounded_eq_ok {room : Nat} {e e' : Expr} (h : bounded room e s = .ok (e', t)) :
    e' = e ∧ t = s ∧ e.height ≤ room := by
  unfold bounded at h
  split at h
  · next hle =>
      obtain ⟨rfl, rfl⟩ := pure_eq_ok_iff.1 h
      exact ⟨rfl, rfl, hle⟩
  · cases h

/-- Induction on the rounds of a loop that succeeds, where a round that goes on has taken a
token. -/
theorem loop_induction {round : α → Reader (α × Bool)} {P : Stream → α → α → Stream → Prop}
    (hlast : ∀ s a b t, s.Closed → round a s = .ok ((b, false), t) → P s a b t)
    (hmore : ∀ s a b t, s.Closed → round a s = .ok ((b, true), t) →
      (∃ ts, ts ≠ [] ∧ s.Taken ts t) ∧ ∀ c u, P t b c u → P s a c u)
    {a c : α} (hs : s.Closed) (h : loop round a s = .ok (c, t)) : P s a c t := by
  -- the stream gets shorter with every round that goes on
  induction hn : s.ahead.length using Nat.strongRecOn generalizing s a with
  | ind n ih =>
      cases hround : round a s with
      | error fault =>
          rw [loop_error hround] at h
          cases h
      | ok result =>
          obtain ⟨⟨b, again⟩, u⟩ := result
          cases again with
          | false =>
              rw [loop_done hround] at h
              cases h
              exact hlast s a c t hs hround
          | true =>
              obtain ⟨⟨ts, hts, htaken⟩, hstep⟩ := hmore s a b u hs hround
              have hlt := htaken.length_lt hts
              rw [loop_again hround hlt] at h
              exact hstep c t (ih u.ahead.length (hn ▸ hlt) (htaken.closed hs) h rfl)

end Successes

end ToolScript.Grammar
