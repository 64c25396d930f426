import ToolScript.Proofs.Grammar.Reading
import ToolScript.Proofs.Walking.Path

/-!
# Walks that follow readers

A walk follows a reader if its cursors make a path back to the level that it began at, and it
finishes with what the reader finds in the tokens ahead of the cursor. As much room is left to the
reader as there are levels left to the walk. Following also says which results have taken a token.

Walks put together from such walks follow readers put together in the same way. A loop of rounds
does, although nothing guards it, if a round that asks for another one has taken a token and the
limit is as large as the row is long.
-/

namespace ToolScript.Grammar

variable {α β : Type} {row : TokenRow} {c : Cursor}

/-- From the cursor on, the walk takes a path back to the level of the cursor, and finishes with
what the reader finds ahead of the cursor. When it gives a value for which `takes` holds, it has
taken a token. -/
structure FollowsAt (row : TokenRow) (walk : Walk α) (reader : Reader α) (takes : α → Prop)
    (c : Cursor) : Prop where
  path : Path row c (walk row c).points (walk row c).cursor
  depth : (walk row c).cursor.depth = c.depth
  gives : ∀ {a : α} {t : Stream}, reader (c.view row) = .ok (a, t) →
    (walk row c).finish = .gives a ∧ (walk row c).cursor.view row = t ∧
      (takes a → c.current < (walk row c).cursor.current)
  blames : ∀ {fault : Fault}, reader (c.view row) = .error fault →
    (walk row c).finish = .blames fault

/-- The walk follows the reader from every cursor with as many levels left as there is room. -/
def Follows (row : TokenRow) (room : Nat) (walk : Walk α) (reader : Reader α) (takes : α → Prop) :
    Prop :=
  ∀ c : Cursor, c.Inside row → c.depth + room = maxNesting → FollowsAt row walk reader takes c

/-- Every result has taken a token. -/
def Always (_ : α) : Prop := True

/-- No result needs to have taken a token. -/
def Never (_ : α) : Prop := False

/-- The results that ask for another round have taken a token. -/
def Again (result : α × Bool) : Prop := result.2 = true

namespace Walk

variable {walk : Walk α} {f : α → Walk β}

theorem bind_gives {a : α} {d : Cursor} {points : List Cursor}
    (h : walk row c = ⟨.gives a, d, points⟩) :
    (walk >>= f) row c = (f a row d).behind points := by
  change (walk row c).andThen _ = _
  simp only [Course.andThen, h]

/-- A walk that sets no cursor leaves the sequence to its second part. -/
theorem bind_still {a : α} (h : walk row c = ⟨.gives a, c, []⟩) :
    (walk >>= f) row c = f a row c :=
  bind_gives h

theorem bind_blames {fault : Fault} {d : Cursor} {points : List Cursor}
    (h : walk row c = ⟨.blames fault, d, points⟩) :
    (walk >>= f) row c = ⟨.blames fault, d, points⟩ := by
  change (walk row c).andThen _ = _
  simp only [Course.andThen, h]

end Walk

variable {room : Nat} {walk : Walk α} {reader : Reader α} {next : α → Walk β}
  {nextReader : α → Reader β} {P : α → Prop} {R S : β → Prop}

namespace FollowsAt

/-- Only what the walk and the reader do at the cursor matters. -/
theorem congr {walk' : Walk α} {reader' : Reader α} (h : FollowsAt row walk reader P c)
    (hwalk : walk' row c = walk row c) (hreader : reader' (c.view row) = reader (c.view row)) :
    FollowsAt row walk' reader' P c where
  path := by simpa only [hwalk] using h.path
  depth := by simpa only [hwalk] using h.depth
  gives hok := by
    rw [hwalk]
    exact h.gives (hreader ▸ hok)
  blames herror := by
    rw [hwalk]
    exact h.blames (hreader ▸ herror)

theorem pure {a : α} (h : ¬ P a) : FollowsAt row (Pure.pure a) (Pure.pure a) P c where
  path := .nil c
  depth := rfl
  gives hreader := by
    obtain ⟨rfl, rfl⟩ := Reader.pure_eq_ok_iff.1 hreader
    exact ⟨rfl, rfl, fun hP => absurd hP h⟩
  blames hreader := by cases hreader

/-- The course is what the reader finds, with the cursors that were set. -/
theorem eq_gives {a : α} {t : Stream} (h : FollowsAt row walk reader P c)
    (hreader : reader (c.view row) = .ok (a, t)) :
    walk row c = ⟨.gives a, (walk row c).cursor, (walk row c).points⟩ := by
  rw [← (h.gives hreader).1]

theorem eq_blames {fault : Fault} (h : FollowsAt row walk reader P c)
    (hreader : reader (c.view row) = .error fault) :
    walk row c = ⟨.blames fault, (walk row c).cursor, (walk row c).points⟩ := by
  rw [← h.blames hreader]

/-- A sequence takes a token if its first part does, or its second part. -/
theorem bind (h : FollowsAt row walk reader P c)
    (hnext : ∀ a d, d.Inside row → d.depth = c.depth → (P a → c.current < d.current) →
      FollowsAt row (next a) (nextReader a) R d)
    (hc : c.Inside row) (htakes : ∀ a b, S b → P a ∨ R b) :
    FollowsAt row (walk >>= next) (reader >>= nextReader) S c := by
  cases hreader : reader (c.view row) with
  | error fault =>
      have hbind := Walk.bind_blames (f := next) (h.eq_blames hreader)
      have herror := Reader.bind_error (f := nextReader) hreader
      refine ⟨?_, ?_, fun hok => ?_, fun herror' => ?_⟩ <;> rw [hbind]
      · exact h.path
      · exact h.depth
      · cases herror.symm.trans hok
      · cases herror.symm.trans herror'
        rfl
  | ok result =>
      obtain ⟨a, t⟩ := result
      -- the second part begins where the first one ends, inside the row and at the same level
      obtain ⟨-, rfl, hfirst⟩ := h.gives hreader
      have hsecond := hnext a _ (h.path.inside hc).1 h.depth hfirst
      have hbind := Walk.bind_gives (f := next) (h.eq_gives hreader)
      have hok := Reader.bind_ok (f := nextReader) hreader
      refine ⟨?_, ?_, fun {b t} hok' => ?_, fun herror => ?_⟩ <;> rw [hbind]
      · exact h.path.append hsecond.path
      · exact hsecond.depth.trans h.depth
      · obtain ⟨hend, hview, hlast⟩ := hsecond.gives (hok.symm.trans hok')
        refine ⟨hend, hview, fun hS => ?_⟩
        rcases htakes a b hS with hP | hR
        · exact Nat.lt_of_lt_of_le (hfirst hP) hsecond.path.current_le
        · exact Nat.lt_of_le_of_lt h.path.current_le (hlast hR)
      · exact hsecond.blames (hok.symm.trans herror)

/-- A sequence whose first part takes a token. -/
theorem bind_taking (h : FollowsAt row walk reader Always c)
    (hnext : ∀ a, Follows row room (next a) (nextReader a) Never) (hc : c.Inside row)
    (hroom : c.depth + room = maxNesting) :
    FollowsAt row (walk >>= next) (reader >>= nextReader) S c :=
  h.bind (fun a d hd hdepth _ => hnext a d hd (hdepth ▸ hroom)) hc fun _ _ _ => .inl trivial

end FollowsAt

namespace Follows

theorem pure {a : α} (h : ¬ P a) : Follows row room (Pure.pure a) (Pure.pure a) P :=
  fun _ _ _ => .pure h

theorem done {a : α} : Follows row room (Pure.pure a) (Pure.pure a) Never :=
  pure id

/-- A sequence whose second part says what has taken a token. -/
theorem bind (h : Follows row room walk reader P)
    (hnext : ∀ a, Follows row room (next a) (nextReader a) R) :
    Follows row room (walk >>= next) (reader >>= nextReader) R :=
  fun c hc hroom => (h c hc hroom).bind
    (fun a d hd hdepth _ => hnext a d hd (hdepth ▸ hroom)) hc fun _ _ hR => .inr hR

/-- A sequence whose first part takes a token. -/
theorem bind_taking (h : Follows row room walk reader Always)
    (hnext : ∀ a, Follows row room (next a) (nextReader a) Never) :
    Follows row room (walk >>= next) (reader >>= nextReader) S :=
  fun c hc hroom => (h c hc hroom).bind_taking hnext hc hroom

theorem map (h : Follows row room walk reader P) (f : α → β) :
    Follows row room (f <$> walk) (f <$> reader) Never :=
  h.bind fun _ => done

end Follows

namespace Walk

theorem tokenAt_eq {i : Nat} {token : Token} (h : row.tokens[i]? = some token) :
    tokenAt i row c = ⟨.gives token, c, []⟩ := by
  simp only [tokenAt, h]

variable (hc : c.Inside row)

include hc

theorem peek_eq : peek row c = ⟨.gives (c.view row).next, c, []⟩ := by
  rw [Cursor.next_view hc hc.lt]
  exact (bind_still rfl).trans (tokenAt_eq (List.getElem?_eq_getElem hc.lt))

theorem peekKind_eq : peekKind row c = ⟨.gives (c.view row).next.kind, c, []⟩ :=
  bind_still (peek_eq hc)

theorem last_eq : last row c = ⟨.gives (c.view row).last, c, []⟩ :=
  (bind_still rfl).trans (tokenAt_eq (Cursor.last_view hc))

/-- In front of the end of input the next token is taken. -/
theorem advance_eq (hkind : (c.view row).next.kind ≠ .endOfInput) :
    advance row c = ⟨.gives (c.view row).next, c.after, [c.after]⟩ := by
  have hafter : c.after.Inside row := (Cursor.step_after hc hkind).inside hc
  refine (bind_still rfl).trans ((bind_still (peekKind_eq hc)).trans ?_)
  rw [if_neg hkind, ← Cursor.last_view_after hc]
  exact (bind_gives rfl).trans (congrArg (Course.behind [c.after]) (last_eq hafter))

end Walk

theorem advance_view (hc : c.Inside row) (hkind : (c.view row).next.kind ≠ .endOfInput) :
    Reader.advance (c.view row) = .ok ((c.view row).next, c.after.view row) := by
  rw [Reader.advance, Cursor.ahead_view_after hc hkind, ← Cursor.last_view_after hc]
  rfl

/-- A reader that takes a token and blames a given one can as well leave it. -/
theorem Reader.advance_blame (expected : Expectation) (found : Token) (s : Stream) :
    (Reader.advance >>= fun _ => (Reader.blame expected found : Reader α)) s =
      Reader.blame expected found s := by
  obtain ⟨token, t, hadvance⟩ : ∃ token t, Reader.advance s = .ok (token, t) := by
    unfold Reader.advance
    split <;> exact ⟨_, _, rfl⟩
  rw [Reader.bind_ok hadvance]
  rfl

namespace FollowsAt

theorem blame (expected : Expectation) (found : Token) :
    FollowsAt row (Walk.blame expected found) (Reader.blame expected found) P c where
  path := .nil c
  depth := rfl
  gives hok := by cases hok
  blames herror := by
    cases herror
    rfl

/-- A walk that looks at the next token goes on with what it sees. -/
theorem look {next : β → Walk α} {nextReader : β → Reader α} {sight : Walk β}
    {sightReader : Reader β} {b : β} (hwalk : sight row c = ⟨.gives b, c, []⟩)
    (hreader : sightReader (c.view row) = .ok (b, c.view row))
    (h : FollowsAt row (next b) (nextReader b) P c) :
    FollowsAt row (sight >>= next) (sightReader >>= nextReader) P c :=
  h.congr (Walk.bind_still hwalk) (Reader.bind_ok hreader)

variable (hc : c.Inside row)

include hc

theorem fail (expected : Expectation) :
    FollowsAt row (Walk.fail expected) (Reader.fail expected) P c :=
  (blame expected (c.view row).next).congr (Walk.bind_still (Walk.peek_eq hc)) rfl

theorem lookKind {f : Token.Kind → Walk α} {g : Token.Kind → Reader α}
    (h : ∀ kind, (c.view row).next.kind = kind → FollowsAt row (f kind) (g kind) P c) :
    FollowsAt row (Walk.peekKind >>= f) (Reader.peekKind >>= g) P c :=
  .look (Walk.peekKind_eq hc) rfl (h _ rfl)

theorem advance (hkind : (c.view row).next.kind ≠ .endOfInput) :
    FollowsAt row Walk.advance Reader.advance Always c := by
  have hadvance := Walk.advance_eq hc hkind
  refine ⟨?_, ?_, fun hok => ?_, fun herror => ?_⟩ <;> rw [hadvance]
  · exact .single (Cursor.step_after hc hkind)
  · rfl
  · cases (advance_view hc hkind).symm.trans hok
    exact ⟨rfl, rfl, fun _ => Nat.lt_succ_self _⟩
  · cases (advance_view hc hkind).symm.trans herror

end FollowsAt

namespace Follows

variable {kind : Token.Kind} {expected : Expectation}

theorem fail : Follows row room (Walk.fail expected) (Reader.fail expected) P :=
  fun _ hc _ => .fail hc expected

theorem blame {found : Token} :
    Follows row room (Walk.blame expected found) (Reader.blame expected found) P :=
  fun _ _ _ => .blame expected found

theorem expect (hkind : kind ≠ .endOfInput) :
    Follows row room (Walk.expect kind expected) (Reader.expect kind expected) Always := by
  intro c hc _
  refine .lookKind hc fun found hfound => ?_
  split
  · next heq => exact .advance hc (hfound ▸ heq ▸ hkind)
  · exact .fail hc expected

theorem expectSymbol {sign : Symbol} :
    Follows row room (Walk.expectSymbol sign expected) (Reader.expectSymbol sign expected) Always :=
  expect (by simp)

theorem expectKeyword {word : Keyword} :
    Follows row room (Walk.expectKeyword word) (Reader.expectKeyword word) Always :=
  expect (by simp)

theorem expectName :
    Follows row room (Walk.expectName expected) (Reader.expectName expected) Always :=
  (expect (by simp)).bind_taking fun _ => done

theorem accept (hkind : kind ≠ .endOfInput) :
    Follows row room (Walk.accept kind) (Reader.accept kind) (· = true) := by
  intro c hc hroom
  refine .lookKind hc fun found hfound => ?_
  split
  · next heq =>
      exact (FollowsAt.advance hc (hfound ▸ heq ▸ hkind)).bind_taking (fun _ => done) hc hroom
  · exact .pure (by simp)

end Follows

namespace Follows

theorem bounded (e : Expr) :
    Follows row room (Walk.bounded e) (Grammar.bounded room e) Never := by
  intro c hc hroom
  have hfits : c.depth + e.height ≤ maxNesting ↔ e.height ≤ room := by omega
  by_cases hle : e.height ≤ room
  · refine FollowsAt.congr (.pure (a := e) id) ((Walk.bind_still rfl).trans ?_) ?_
    · rw [if_pos (hfits.2 hle)]
    · rw [Grammar.bounded, if_pos hle]
  · refine FollowsAt.congr (.blame .lessNesting (c.view row).last)
      ((Walk.bind_still rfl).trans ?_) ?_
    · rw [if_neg (hle ∘ hfits.1)]
      exact Walk.bind_still (Walk.last_eq hc)
    · rw [Grammar.bounded, if_neg hle]
      rfl

/-- With no level left, going down fails. -/
theorem nested_zero : Follows row 0 (Walk.nested walk) tooDeep P := by
  intro c hc hroom
  exact (FollowsAt.fail hc .lessNesting).congr (if_pos (Nat.le_of_eq hroom.symm)) rfl

theorem nested_succ (h : Follows row room walk reader P) :
    Follows row (room + 1) (Walk.nested walk) reader P := by
  intro c hc hroom
  have hlt : c.depth < maxNesting := by omega
  have hdown : Step row c c.down := .down hlt
  have hinner : FollowsAt row walk reader P c.down :=
    h c.down (hdown.inside hc) ((Nat.add_right_comm ..).trans hroom)
  have hnested : Walk.nested walk row c = ((walk row c.down).backTo c.depth).behind [c.down] :=
    if_neg (Nat.not_le_of_lt hlt)
  -- the walk ends one level below the cursor, so that there is a step back up
  have hback : Step row (walk row c.down).cursor ⟨(walk row c.down).cursor.current, c.depth⟩ :=
    .back hinner.depth
  refine ⟨?_, ?_, fun hok => ?_, fun herror => ?_⟩ <;> rw [hnested]
  · exact .cons hdown (hinner.path.append (.single hback))
  · rfl
  · exact hinner.gives hok
  · exact hinner.blames herror

end Follows

section Rounds

variable {round : α → Walk (α × Bool)} {roundReader : α → Reader (α × Bool)} {limit : Nat}

/-- Where a round that asks for another one takes a token, a loop is its first round and what it
asks for. -/
theorem Reader.loop_eq_bind {a : α} {s : Stream}
    (htakes : ∀ {b : α} {t : Stream}, roundReader a s = .ok ((b, true), t) →
      t.ahead.length < s.ahead.length) :
    Reader.loop roundReader a s =
      (roundReader a >>= fun result =>
        if result.2 then Reader.loop roundReader result.1 else pure result.1) s := by
  cases hround : roundReader a s with
  | error fault => rw [Reader.loop_error hround, Reader.bind_error hround]
  | ok result =>
      obtain ⟨⟨b, again⟩, t⟩ := result
      rw [Reader.bind_ok hround]
      cases again with
      | false => exact Reader.loop_done hround
      | true => exact Reader.loop_again hround (htakes hround)

namespace FollowsAt

/-- What a result has taken is missing ahead of the cursor. -/
theorem length_lt (h : FollowsAt row walk reader P c) {a : α} {t : Stream}
    (hreader : reader (c.view row) = .ok (a, t)) (hP : P a) (hc : c.Inside row) :
    t.ahead.length < (c.view row).ahead.length := by
  obtain ⟨-, rfl, htakes⟩ := h.gives hreader
  have hend := (h.path.inside hc).1.current
  have hlt := htakes hP
  rw [Cursor.length_ahead_view, Cursor.length_ahead_view]
  omega

/-- The tokens up to the end of input bound the rounds: one that asks for another one takes a
token. -/
theorem loop (hround : ∀ a, Follows row room (round a) (roundReader a) Again) (a : α)
    (hc : c.Inside row) (hroom : c.depth + room = maxNesting)
    (hlimit : row.stop - c.current < limit) :
    FollowsAt row (Walk.loop round limit a) (Reader.loop roundReader a) Never c := by
  -- a round that goes on has taken a token, so that the limit stays above the tokens ahead
  induction limit generalizing a c with
  | zero => omega
  | succ limit ih =>
      have hfirst := hround a c hc hroom
      have hsequence :
          FollowsAt row
            (round a >>= fun result =>
              if result.2 then Walk.loop round limit result.1 else Pure.pure result.1)
            (roundReader a >>= fun result =>
              if result.2 then Reader.loop roundReader result.1 else Pure.pure result.1)
            Never c := by
        refine hfirst.bind (fun result d hd hdepth htakes => ?_) hc fun _ _ => Or.inr
        by_cases hagain : result.2 = true
        · rw [if_pos hagain, if_pos hagain]
          have hlt := htakes hagain
          have hend := hd.current
          exact ih result.1 hd (hdepth ▸ hroom) (by omega)
        · rw [if_neg hagain, if_neg hagain]
          exact .pure id
      exact hsequence.congr rfl (Reader.loop_eq_bind fun hok => hfirst.length_lt hok rfl hc)

end FollowsAt

namespace Follows

theorem loop (hround : ∀ a, Follows row room (round a) (roundReader a) Again)
    (hlimit : row.tokens.length ≤ limit) (a : α) :
    Follows row room (Walk.loop round limit a) (Reader.loop roundReader a) Never :=
  fun _ hc hroom => .loop hround a hc hroom <|
    Nat.lt_of_le_of_lt (Nat.sub_le _ _) (Nat.lt_of_lt_of_le row.stop_lt hlimit)

/-- A sequence whose first part only looks at the kind of the next token. -/
theorem lookKind {f : Token.Kind → Walk α} {g : Token.Kind → Reader α}
    (h : ∀ kind, Follows row room (f kind) (g kind) P) :
    Follows row room (Walk.peekKind >>= f) (Reader.peekKind >>= g) P :=
  fun c hc hroom => .lookKind hc fun kind _ => h kind c hc hroom

variable {close : Symbol} {trailing : Bool} {item : α → Walk α} {itemReader : α → Reader α}

theorem itemRound (hitem : ∀ a, Follows row room (item a) (itemReader a) Always) (a : α) :
    Follows row room (Walk.itemRound close trailing item a)
      (Reader.itemRound close trailing itemReader a) Again := by
  refine (hitem a).bind_taking fun b => ?_
  refine (accept (by simp)).bind fun comma => ?_
  cases comma with
  | true => exact lookKind fun kind => done
  | false => exact done

theorem separated (hitem : ∀ a, Follows row room (item a) (itemReader a) Always)
    (hlimit : row.tokens.length ≤ limit) (a : α) :
    Follows row room (Walk.separated limit close trailing item a)
      (Reader.separated close trailing itemReader a) Never := by
  refine lookKind fun kind => ?_
  split
  · exact done
  · exact loop (itemRound hitem) hlimit a

end Follows

end Rounds

end ToolScript.Grammar
