import ToolScript.Proofs.Walking.Walk

/-!
# Paths of cursors

The cursors that a walk sets make a path of single steps: one takes a token in front of the first
end of input, goes one level down where there is one left, or one level up. On such a path a cursor
stays inside the row and inside the levels, and its index is never set back.

From a cursor inside the row the tokens up to the first end of input are the stream that a reader
would have there.
-/

namespace ToolScript.Grammar

variable {row : TokenRow} {c d e : Cursor} {points more : List Cursor}

namespace TokenRow

theorem stop_lt (row : TokenRow) : row.stop < row.tokens.length := by
  obtain ⟨token, hlast, hkind⟩ := Option.map_eq_some_iff.1 row.closed
  exact List.findIdx_lt_length_of_exists ⟨token, List.mem_of_getLast? hlast, by simpa using hkind⟩

theorem kind_at_stop (hlt : row.stop < row.tokens.length) :
    row.tokens[row.stop].kind = .endOfInput :=
  of_decide_eq_true (List.findIdx_getElem (w := hlt))

theorem kind_before_stop {i : Nat} (h : i < row.stop) (hlt : i < row.tokens.length) :
    row.tokens[i].kind ≠ .endOfInput := by
  simpa using List.not_of_lt_findIdx h

end TokenRow

/-- The cursor stands at a token of the row, at most at the first end of input, and at a level that
there is. -/
structure Cursor.Inside (row : TokenRow) (c : Cursor) : Prop where
  current : c.current ≤ row.stop
  depth : c.depth ≤ maxNesting

/-- What a walk does to its cursor at a time. -/
inductive Step (row : TokenRow) : Cursor → Cursor → Prop
  | take {c : Cursor} (h : c.current < row.stop) : Step row c c.after
  | down {c : Cursor} (h : c.depth < maxNesting) : Step row c c.down
  | up {c : Cursor} : Step row c.down c

/-- The points are set one after the other on the way between two cursors. -/
inductive Path (row : TokenRow) : Cursor → List Cursor → Cursor → Prop
  | nil (c : Cursor) : Path row c [] c
  | cons {c d e : Cursor} {points : List Cursor} (h : Step row c d) (rest : Path row d points e) :
      Path row c (d :: points) e

theorem Step.inside (h : Step row c d) (hc : c.Inside row) : d.Inside row := by
  obtain ⟨hcurrent, hdepth⟩ := hc
  cases h with
  | take h => exact ⟨h, hdepth⟩
  | down h => exact ⟨hcurrent, h⟩
  | up => exact ⟨hcurrent, Nat.le_of_succ_le hdepth⟩

theorem Step.back {depth : Nat} (h : c.depth = depth + 1) : Step row c ⟨c.current, depth⟩ := by
  obtain ⟨current, _⟩ := c
  cases h
  exact .up (c := ⟨current, depth⟩)

theorem Step.current_le (h : Step row c d) : c.current ≤ d.current := by
  cases h with
  | take => exact Nat.le_succ _
  | down | up => exact Nat.le_refl _

namespace Path

theorem single (h : Step row c d) : Path row c [d] d :=
  .cons h (.nil d)

theorem append (h : Path row c points d) (h' : Path row d more e) :
    Path row c (points ++ more) e := by
  induction h with
  | nil => exact h'
  | cons h _ ih => exact .cons h (ih h')

theorem inside (h : Path row c points d) (hc : c.Inside row) :
    d.Inside row ∧ ∀ p ∈ c :: points, p.Inside row := by
  induction h with
  | nil => exact ⟨hc, by simpa using hc⟩
  | cons h _ ih =>
      obtain ⟨hend, hpoints⟩ := ih (h.inside hc)
      exact ⟨hend, List.forall_mem_cons.2 ⟨hc, hpoints⟩⟩

/-- The index is never set back. -/
theorem increasing (h : Path row c points d) :
    (c :: points).Pairwise fun p q => p.current ≤ q.current := by
  induction h with
  | nil => exact List.pairwise_singleton _ _
  | @cons c d _ points h _ ih =>
      refine List.pairwise_cons.2 ⟨fun p hp => Nat.le_trans h.current_le ?_, ih⟩
      rcases List.mem_cons.1 hp with rfl | hp
      · exact Nat.le_refl _
      · exact List.rel_of_pairwise_cons ih hp

theorem getLast (h : Path row c points d) : (c :: points).getLast? = some d := by
  induction h with
  | nil => rfl
  | cons _ _ ih => rwa [List.getLast?_cons_cons]

theorem current_le (h : Path row c points d) : c.current ≤ d.current := by
  induction h with
  | nil => exact Nat.le_refl _
  | cons h _ ih => exact Nat.le_trans h.current_le ih

end Path

/-- The stream that is seen from a cursor in the row. -/
def Cursor.view (row : TokenRow) (c : Cursor) : Stream where
  last := row.tokens.getD (c.current - 1) (Token.endAt .start)
  ahead := (row.tokens.take row.stop).drop c.current
  stop := row.tokens.getD row.stop (Token.endAt .start)

namespace Cursor

theorem Inside.lt (h : c.Inside row) : c.current < row.tokens.length :=
  Nat.lt_of_le_of_lt h.current row.stop_lt

theorem ahead_view (h : c.current < row.stop) (hlt : c.current < row.tokens.length) :
    (c.view row).ahead = row.tokens[c.current] :: (c.after.view row).ahead := by
  have htake : c.current < (row.tokens.take row.stop).length := by
    rw [List.length_take]
    exact Nat.lt_min.2 ⟨h, hlt⟩
  simp only [view, after, List.drop_eq_getElem_cons htake, List.getElem_take]

theorem ahead_view_stop (h : c.current = row.stop) : (c.view row).ahead = [] := by
  simp [view, h]

theorem next_view (h : c.Inside row) (hlt : c.current < row.tokens.length) :
    (c.view row).next = row.tokens[c.current] := by
  rcases Nat.lt_or_eq_of_le h.current with hbefore | heq
  · simp only [Stream.next, ahead_view hbefore hlt, List.headD_cons]
  · simp only [Stream.next, ahead_view_stop heq, List.headD_nil, heq]
    exact (List.getElem_eq_getD _).symm

theorem last_view (h : c.Inside row) :
    row.tokens[c.current - 1]? = some (c.view row).last := by
  have hlt : c.current - 1 < row.tokens.length := Nat.lt_of_le_of_lt (Nat.sub_le _ _) h.lt
  simp [view, hlt]

theorem length_ahead_view (row : TokenRow) (c : Cursor) :
    (c.view row).ahead.length = row.stop - c.current := by
  simp [view, Nat.min_eq_left (Nat.le_of_lt row.stop_lt)]

/-- The end of input is next exactly at its index. -/
theorem kind_next_view (h : c.Inside row) :
    (c.view row).next.kind = .endOfInput ↔ c.current = row.stop := by
  rw [next_view h h.lt]
  constructor
  · intro hkind
    rcases Nat.lt_or_eq_of_le h.current with hlt | heq
    · exact absurd hkind (row.kind_before_stop hlt h.lt)
    · exact heq
  · intro heq
    simpa only [heq] using row.kind_at_stop row.stop_lt

section After

variable (hc : c.Inside row) (hkind : (c.view row).next.kind ≠ .endOfInput)

include hc

theorem last_view_after : (c.after.view row).last = (c.view row).next := by
  rw [next_view hc hc.lt]
  exact (List.getElem_eq_getD _).symm

include hkind

theorem lt_stop : c.current < row.stop :=
  Nat.lt_of_le_of_ne hc.current fun heq => hkind ((kind_next_view hc).2 heq)

/-- In front of the end of input there is a step behind the next token. -/
theorem step_after : Step row c c.after :=
  .take (lt_stop hc hkind)

theorem ahead_view_after : (c.view row).ahead = (c.view row).next :: (c.after.view row).ahead := by
  rw [next_view hc hc.lt]
  exact ahead_view (lt_stop hc hkind) hc.lt

end After

theorem start_inside (row : TokenRow) : Cursor.start.Inside row :=
  ⟨Nat.zero_le _, Nat.zero_le _⟩

theorem view_start (row : TokenRow) : Cursor.start.view row = Stream.ofTokens row.tokens := by
  have hahead : (Cursor.start.view row).ahead =
      row.tokens.takeWhile fun token => token.kind ≠ .endOfInput := by
    rw [List.takeWhile_eq_take_findIdx_not]
    simp [view, start, TokenRow.stop]
  have hlt := row.stop_lt
  have hfind : row.tokens.find? (fun token => token.kind = .endOfInput) =
      some row.tokens[row.stop] := by
    rw [List.find?_eq_getElem?_findIdx]
    exact List.getElem?_eq_getElem hlt
  have hstop : (Cursor.start.view row).stop = row.tokens[row.stop] :=
    (List.getElem_eq_getD _).symm
  have hlast : (Cursor.start.view row).last = (Cursor.start.view row).next := by
    rw [next_view (start_inside row) (start_inside row).lt]
    exact (List.getElem_eq_getD _).symm
  rw [Stream.ofTokens, hfind, Option.getD_some, ← hahead, ← hstop]
  exact congrArg (Stream.mk · _ _) hlast

end Cursor

namespace TokenRow

/-- The end of input that a row puts behind a list stands where the stream of the list has one. -/
theorem stream_ofTokens (tokens : List Token) :
    Stream.ofTokens (TokenRow.ofTokens tokens).tokens = Stream.ofTokens tokens := by
  unfold TokenRow.ofTokens
  split
  · rfl
  · have hahead (position : Position) :
        (tokens ++ [Token.endAt position]).takeWhile (fun token => token.kind ≠ .endOfInput) =
          tokens.takeWhile fun token => token.kind ≠ .endOfInput := by
      rw [List.takeWhile_append]
      split
      · next hall =>
          rw [(List.takeWhile_prefix _).eq_of_length hall]
          simp [Token.endAt]
      · rfl
    simp only [Stream.ofTokens, List.find?_append]
    rw [hahead]
    simp [Token.endAt]

theorem length_ofTokens_le (tokens : List Token) :
    (TokenRow.ofTokens tokens).tokens.length ≤ tokens.length + 1 := by
  unfold TokenRow.ofTokens
  split
  · exact Nat.le_succ _
  · exact Nat.le_of_eq List.length_append

end TokenRow

end ToolScript.Grammar
