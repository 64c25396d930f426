import ToolScript.Position
import ToolScript.Text.Lines

/-!
# Positions and lines

A position counts the line breaks in front of it, and the characters behind the last one of
them. The lines of a text are cut by another rule, which takes one carriage return to the
break behind it and has no line behind a final break. The two agree for each position that
does not stand between the two characters of a break: its line is there unless the position is
the end of a text without an open line, and the line reaches at least up to the position.
-/

namespace ToolScript

/-- The position is that of a character of the text or of its end, and not between a carriage
return and the line feed behind it. -/
def Position.Marks (cs : List Char) (p : Position) : Prop :=
  ∃ pre post, cs = pre ++ post ∧ p = Position.start.after pre ∧
    ¬ (pre.getLast? = some '\r' ∧ post.head? = some '\n')

namespace Text

/-- The text ends where a line begins. -/
def EndsLine (cs : List Char) : Prop :=
  cs = [] ∨ cs.getLast? = some '\n'

/-- The line of the text that the position stands in: what begins behind the last line break
before the position and goes on to the next break or to the end. A carriage return right
before the next break belongs to that break. -/
structure Holds (cs : List Char) (p : Position) (line : List Char) : Prop where
  parts : ∃ front tail, cs = front ++ line ++ tail ∧ EndsLine front ∧
    p.line = front.count '\n' + 1 ∧
    (tail = [] ∨ ∃ rest, tail = '\n' :: rest ∨ tail = '\r' :: '\n' :: rest)
  unbroken : '\n' ∉ line
  reaches : p.column - 1 ≤ line.length

end Text

namespace Position

theorem line_after (p : Position) (cs : List Char) :
    (p.after cs).line = p.line + cs.count '\n' := by
  induction cs generalizing p with
  | nil => rfl
  | cons c rest ih =>
      rw [after_cons, ih, List.count_cons]
      unfold step
      split
      · next h => simp only [h, beq_self_eq_true, if_true]; omega
      · next h => simp [h]

theorem after_of_not_mem {cs : List Char} (h : '\n' ∉ cs) (p : Position) :
    p.after cs = ⟨p.line, p.column + cs.length⟩ := by
  induction cs generalizing p with
  | nil => rfl
  | cons c rest ih =>
      simp only [List.mem_cons, not_or] at h
      rw [after_cons, ih h.2, step, if_neg (Ne.symm h.1)]
      simp only [List.length_cons, Position.mk.injEq, true_and]
      omega

/-- Where a line begins the column is the first one. -/
theorem after_of_endsLine {cs : List Char} (h : Text.EndsLine cs) :
    start.after cs = ⟨cs.count '\n' + 1, 1⟩ := by
  have hline : (start.after cs).line = cs.count '\n' + 1 :=
    (line_after start cs).trans (Nat.add_comm _ _)
  have hcolumn : (start.after cs).column = 1 := by
    rcases h with rfl | h
    · rfl
    · obtain ⟨body, rfl⟩ := List.getLast?_eq_some_iff.1 h
      rw [after_append]
      rfl
  rw [← hline, ← hcolumn]

theorem after_le (cs : List Char) :
    (start.after cs).line ≤ cs.length + 1 ∧ (start.after cs).column ≤ cs.length + 1 := by
  suffices h : ∀ p : Position, (p.after cs).line ≤ p.line + cs.length ∧
      (p.after cs).column ≤ max p.column 1 + cs.length by
    have hstart := h start
    simp only [start] at hstart ⊢
    omega
  induction cs with
  | nil => exact fun p => ⟨Nat.le_refl _, Nat.le_max_left _ _⟩
  | cons c rest ih =>
      intro p
      have hrest := ih (p.step c)
      simp only [after_cons, List.length_cons]
      unfold step at hrest ⊢
      split at hrest
      · next h =>
          simp only [h, if_true] at hrest ⊢
          omega
      · next h =>
          simp only [h, if_false] at hrest ⊢
          omega

end Position

namespace Text

variable {cs front cur post rest : List Char}

/-- Every text is whole lines and the beginning of one more. -/
theorem exists_endsLine (cs : List Char) :
    ∃ front cur, cs = front ++ cur ∧ EndsLine front ∧ '\n' ∉ cur := by
  induction cs with
  | nil => exact ⟨[], [], rfl, .inl rfl, List.not_mem_nil⟩
  | cons c rest ih =>
      obtain ⟨front, cur, rfl, hfront, hcur⟩ := ih
      cases front with
      | nil =>
          by_cases hc : c = '\n'
          · exact ⟨[c], cur, rfl, .inr (by rw [hc]; rfl), hcur⟩
          · exact ⟨[], c :: cur, rfl, .inl rfl, by simp [Ne.symm hc, hcur]⟩
      | cons d front =>
          refine ⟨c :: d :: front, cur, rfl, .inr ?_, hcur⟩
          rw [List.getLast?_cons_cons]
          exact hfront.resolve_left (List.cons_ne_nil _ _)

theorem lines_break (rest : List Char) : lines ('\n' :: rest) = [] :: lines rest := by
  simp only [lines]

theorem lines_return (rest : List Char) : lines ('\r' :: '\n' :: rest) = lines ('\n' :: rest) := by
  simp only [lines]

/-- A character that is not part of a line break stands in the first line. -/
theorem lines_cons {c : Char} (hc : c ≠ '\n')
    (hreturn : ¬ (c = '\r' ∧ rest.head? = some '\n')) :
    lines (c :: rest) =
      match lines rest with
      | [] => [[c]]
      | line :: others => (c :: line) :: others := by
  rw [lines.eq_def]
  split
  · next h => cases h
  · next h =>
      cases h
      exact absurd rfl hc
  · next h =>
      cases h
      exact absurd ⟨rfl, rfl⟩ hreturn
  · next h =>
      cases h
      rfl

theorem lines_eq_nil_iff : lines cs = [] ↔ cs = [] := by
  constructor
  · intro h
    rw [lines.eq_def] at h
    split at h
    · rfl
    · cases h
    · cases h
    · split at h <;> cases h
  · rintro rfl
    rfl

theorem EndsLine.of_cons {c : Char} (h : EndsLine (c :: rest)) : EndsLine rest := by
  cases rest with
  | nil => exact .inl rfl
  | cons d rest => exact .inr (h.resolve_left (List.cons_ne_nil _ _))

/-- Whole lines are as many as their breaks, and the lines of what follows come behind them. -/
theorem lines_append (h : EndsLine front) (rest : List Char) :
    lines (front ++ rest) = lines front ++ lines rest ∧
      (lines front).length = front.count '\n' := by
  induction front with
  | nil => exact ⟨rfl, rfl⟩
  | cons c front ih =>
      obtain ⟨happend, hlength⟩ := ih h.of_cons
      by_cases hc : c = '\n'
      · subst hc
        simp only [List.cons_append, lines_break, happend, List.length_cons, hlength,
          List.count_cons_self, and_self]
      by_cases hreturn : c = '\r' ∧ front.head? = some '\n'
      · obtain ⟨rfl, hhead⟩ := hreturn
        obtain ⟨others, rfl⟩ := List.head?_eq_some_iff.1 hhead
        rw [List.cons_append] at happend ⊢
        rw [List.cons_append, lines_return, lines_return, happend,
          List.count_cons_of_ne (by decide)]
        exact ⟨rfl, hlength⟩
      · -- the line goes on, so there is more of it in `front`
        cases front with
        | nil => exact absurd (Option.some.inj (h.resolve_left (List.cons_ne_nil _ _))) hc
        | cons d others =>
            have hne : lines (d :: others) ≠ [] := mt lines_eq_nil_iff.1 (List.cons_ne_nil _ _)
            obtain ⟨line, lines', hlines⟩ := List.exists_cons_of_ne_nil hne
            rw [hlines] at happend hlength
            rw [List.cons_append, lines_cons hc hreturn,
              @lines_cons (d :: others ++ rest) c hc hreturn, happend, hlines,
              List.count_cons_of_ne hc]
            exact ⟨rfl, hlength⟩

/-- The text before a position in a line is the beginning of that line. -/
theorem lines_of_not_mem (hcur : '\n' ∉ cur)
    (hbreak : ¬ (cur.getLast? = some '\r' ∧ post.head? = some '\n')) (hne : cur ++ post ≠ []) :
    ∃ line others, lines (cur ++ post) = (cur ++ line) :: others := by
  induction cur with
  | nil =>
      obtain ⟨line, others, hlines⟩ := List.exists_cons_of_ne_nil (mt lines_eq_nil_iff.1 hne)
      exact ⟨line, others, hlines⟩
  | cons c cur ih =>
      simp only [List.mem_cons, not_or] at hcur
      have hreturn : ¬ (c = '\r' ∧ (cur ++ post).head? = some '\n') := by
        rintro ⟨rfl, hhead⟩
        cases cur with
        | nil => exact hbreak ⟨rfl, hhead⟩
        | cons d cur => exact hcur.2 (by simp_all)
      rw [List.cons_append, lines_cons (Ne.symm hcur.1) hreturn]
      by_cases hrest : cur ++ post = []
      · obtain ⟨rfl, rfl⟩ := List.append_eq_nil_iff.1 hrest
        exact ⟨[], [], rfl⟩
      · have hbreak' : ¬ (cur.getLast? = some '\r' ∧ post.head? = some '\n') := by
          rintro ⟨hlast, hhead⟩
          cases cur with
          | nil => cases hlast
          | cons d cur => exact hbreak ⟨by rwa [List.getLast?_cons_cons], hhead⟩
        obtain ⟨line, others, hlines⟩ := ih hcur.2 hbreak' hrest
        exact ⟨line, others, by rw [hlines]; rfl⟩

/-- The first line goes up to the first line break or to the end. -/
theorem lines_eq_cons {line : List Char} {others : List (List Char)}
    (h : lines cs = line :: others) :
    ∃ tail, cs = line ++ tail ∧ '\n' ∉ line ∧
      (tail = [] ∨ ∃ rest, tail = '\n' :: rest ∨ tail = '\r' :: '\n' :: rest) := by
  induction cs generalizing line others with
  | nil => cases h
  | cons c rest ih =>
      by_cases hc : c = '\n'
      · subst hc
        rw [lines_break] at h
        cases h
        exact ⟨_, rfl, List.not_mem_nil, .inr ⟨rest, .inl rfl⟩⟩
      by_cases hreturn : c = '\r' ∧ rest.head? = some '\n'
      · obtain ⟨rfl, hhead⟩ := hreturn
        obtain ⟨rest, rfl⟩ := List.head?_eq_some_iff.1 hhead
        rw [lines_return, lines_break] at h
        cases h
        exact ⟨_, rfl, List.not_mem_nil, .inr ⟨rest, .inr rfl⟩⟩
      rw [lines_cons hc hreturn] at h
      split at h
      · next hlines =>
          cases h
          rw [lines_eq_nil_iff.1 hlines]
          exact ⟨[], rfl, by simpa using Ne.symm hc, .inl rfl⟩
      · next first others' hlines =>
          cases h
          obtain ⟨tail, rfl, hfirst, htail⟩ := ih hlines
          exact ⟨tail, rfl, by simp [Ne.symm hc, hfirst], htail⟩

/-- The lines from the one that a position stands in on. -/
theorem drop_lines_of_marks {p : Position} (h : p.Marks cs) :
    ∃ front cur post, cs = front ++ (cur ++ post) ∧ EndsLine front ∧
      p = ⟨front.count '\n' + 1, cur.length + 1⟩ ∧
      (lines cs)[p.line - 1]? = (lines (cur ++ post))[0]? ∧
      (cur ++ post ≠ [] → ∃ line others, lines (cur ++ post) = (cur ++ line) :: others) := by
  obtain ⟨pre, post, rfl, rfl, hbreak⟩ := h
  obtain ⟨front, cur, rfl, hfront, hcur⟩ := exists_endsLine pre
  have hplace : Position.start.after (front ++ cur) = ⟨front.count '\n' + 1, cur.length + 1⟩ := by
    rw [Position.after_append, Position.after_of_endsLine hfront, Position.after_of_not_mem hcur,
      Nat.add_comm 1]
  obtain ⟨happend, hlength⟩ := lines_append hfront (cur ++ post)
  refine ⟨front, cur, post, List.append_assoc _ _ _, hfront, hplace, ?_, fun hne => ?_⟩
  · rw [hplace, List.append_assoc, happend, Nat.add_sub_cancel, ← hlength,
      List.getElem?_append_right (Nat.le_refl _), Nat.sub_self]
  · refine lines_of_not_mem hcur ?_ hne
    rintro ⟨hlast, hhead⟩
    exact hbreak ⟨by rw [List.getLast?_append, hlast]; rfl, hhead⟩

/-- There is no line for a position exactly if it is the end of a text without an open line. -/
theorem line?_eq_none_iff {source : String} {p : Position} (h : p.Marks source.toList) :
    line? source p.line = none ↔ p = Position.start.after source.toList ∧ p.column = 1 ∧
      (source = "" ∨ source.toList.getLast? = some '\n') := by
  constructor
  · intro hnone
    obtain ⟨front, cur, post, hsource, hfront, hplace, hlines, hfirst⟩ := drop_lines_of_marks h
    have hempty : cur ++ post = [] := by
      apply Decidable.byContradiction
      intro hne
      obtain ⟨line, others, hcons⟩ := hfirst hne
      simp [line?, hlines, hcons] at hnone
    obtain ⟨rfl, rfl⟩ := List.append_eq_nil_iff.1 hempty
    rw [List.append_nil, List.append_nil] at hsource
    rw [hsource, Position.after_of_endsLine hfront]
    refine ⟨hplace, by rw [hplace]; rfl, ?_⟩
    rcases hfront with rfl | hlast
    · exact .inl (String.toList_eq_nil_iff.1 hsource)
    · exact .inr hlast
  · rintro ⟨rfl, -, hend⟩
    have hends : EndsLine source.toList :=
      hend.imp_left fun h => by rw [h]; rfl
    have hlength := (lines_append hends []).2
    rw [Position.after_of_endsLine hends]
    simp [line?, hlength]

/-- The line for a position is the one that it stands in. -/
theorem holds_of_line? {source line : String} {p : Position} (h : p.Marks source.toList)
    (hline : line? source p.line = some line) : Holds source.toList p line.toList := by
  obtain ⟨front, cur, post, hsource, hfront, hplace, hlines, hfirst⟩ := drop_lines_of_marks h
  have hne : cur ++ post ≠ [] := by
    intro hempty
    simp [line?, hlines, hempty, lines] at hline
  obtain ⟨rest, others, hcons⟩ := hfirst hne
  obtain rfl : String.ofList (cur ++ rest) = line := by
    simpa [line?, hlines, hcons] using hline
  obtain ⟨tail, htail, hunbroken, hend⟩ := lines_eq_cons hcons
  rw [String.toList_ofList]
  refine ⟨⟨front, tail, ?_, hfront, by rw [hplace], hend⟩, hunbroken, ?_⟩
  · rw [hsource, htail, ← List.append_assoc]
  · rw [hplace, List.length_append]
    exact Nat.le_add_right _ _

end Text

end ToolScript
