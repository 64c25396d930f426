import ToolScript.Builtin

/-!
# Filled templates

A template can be put together from literal texts, whose braces are doubled, and from slots.
However the pieces touch, it is cut at their borders again. So filling it gives the literal texts
and the texts of the values one after the other, or complains of the leftmost name without a value.
-/

namespace ToolScript.Template

/-- A piece that a template is put together from: a literal text, or a slot with what stands between
its braces. -/
inductive Piece where
  | literal (text : List Char)
  | slot (raw : List Char)

/-- A character as it is written in a template: braces are doubled. -/
def doubled (c : Char) : List Char :=
  if c = '{' ∨ c = '}' then [c, c] else [c]

namespace Piece

/-- The piece as it is written in a template. -/
def written : Piece → List Char
  | .literal text => text.flatMap doubled
  | .slot raw => '{' :: (raw ++ ['}'])

/-- A slot can be told from its surroundings and names something: it has no closing brace, does not
begin with an opening one, and is not blank. -/
def Sound : Piece → Prop
  | .literal _ => True
  | .slot raw => '}' ∉ raw ∧ raw.head? ≠ some '{' ∧ Text.trim raw ≠ []

/-- The name in a slot, without the blanks around it. -/
def name? : Piece → Option String
  | .literal _ => none
  | .slot raw => some (String.ofList (Text.trim raw))

/-- The text that stands for the piece in a filled template. -/
def shown (values : Dict Value) : Piece → String
  | .literal text => String.ofList text
  | .slot raw =>
      match Dict.get? values (String.ofList (Text.trim raw)) with
      | some value => value.text
      | none => ""

/-- The segments that the piece is cut into. -/
def segments : Piece → List Segment
  | .literal text => text.map .char
  | .slot raw => [.slot raw]

end Piece

/-- The template that the pieces make up. -/
def assembled (pieces : List Piece) : String :=
  String.ofList (pieces.flatMap Piece.written)

/-- The names in the slots, from left to right. -/
def names (pieces : List Piece) : List String :=
  pieces.filterMap Piece.name?

/-- The leftmost name without a value. -/
def missing? (values : Dict Value) (pieces : List Piece) : Option String :=
  (names pieces).find? fun name => (Dict.get? values name).isNone

theorem segments_doubled (c : Char) (rest : List Char) :
    segments (doubled c ++ rest) = .char c :: segments rest := by
  unfold doubled
  split
  · next hbrace => rcases hbrace with rfl | rfl <;> rfl
  · next hbrace =>
      obtain ⟨hopen, hclose⟩ := not_or.1 hbrace
      exact segments.eq_5 c rest (fun _ heq _ => hopen heq) (fun _ heq _ => hclose heq) hopen

theorem segments_literal (text rest : List Char) :
    segments (text.flatMap doubled ++ rest) = text.map .char ++ segments rest := by
  induction text with
  | nil => rfl
  | cons c text ih =>
      rw [List.flatMap_cons, List.append_assoc, segments_doubled, ih, List.map_cons,
        List.cons_append]

theorem segmentsInSlot_closed {raw : List Char} (h : '}' ∉ raw) (read rest : List Char) :
    segmentsInSlot read (raw ++ '}' :: rest) = .slot (read ++ raw) :: segments rest := by
  induction raw generalizing read with
  | nil => simp [segmentsInSlot]
  | cons c raw ih =>
      obtain ⟨hc, hraw⟩ := not_or.1 (mt List.mem_cons.2 h)
      rw [List.cons_append, segmentsInSlot, if_neg (Ne.symm hc), ih hraw, List.append_assoc,
        List.singleton_append]

/-- A slot is cut where it is closed, whatever stands behind it. -/
theorem segments_slot {raw : List Char} (hclosed : '}' ∉ raw)
    (hopen : raw.head? ≠ some '{') (rest : List Char) :
    segments ('{' :: (raw ++ '}' :: rest)) = .slot raw :: segments rest := by
  have hinside : segments ('{' :: (raw ++ '}' :: rest)) =
      segmentsInSlot [] (raw ++ '}' :: rest) := by
    cases raw with
    | nil => rfl
    | cons c raw =>
        have hc : c ≠ '{' := fun heq => hopen (congrArg some heq)
        exact segments.eq_4 _ fun _ heq => hc (List.cons.inj heq).1
  rw [hinside, segmentsInSlot_closed hclosed, List.nil_append]

/-- A template is cut at the borders of its pieces. -/
theorem segments_assembled {pieces : List Piece} (h : ∀ piece ∈ pieces, piece.Sound) :
    segments (assembled pieces).toList = pieces.flatMap Piece.segments := by
  simp only [assembled, String.toList_ofList]
  induction pieces with
  | nil => rfl
  | cons piece pieces ih =>
      obtain ⟨hpiece, hpieces⟩ := List.forall_mem_cons.1 h
      rw [List.flatMap_cons, List.flatMap_cons, ← ih hpieces]
      cases piece with
      | literal text => exact segments_literal text _
      | slot raw =>
          rw [Piece.written, List.cons_append, List.append_assoc, List.singleton_append]
          exact segments_slot hpiece.1 hpiece.2.1 _

theorem fillSegments_append (values : Dict Value) (front back : List Segment) :
    fillSegments values (front ++ back) = (do
      let text ← fillSegments values front
      let others ← fillSegments values back
      pure (text ++ others)) := by
  induction front with
  | nil =>
      rw [List.nil_append, fillSegments]
      cases fillSegments values back <;> simp [bind, Except.bind, pure, Except.pure]
  | cons segment front ih =>
      rw [List.cons_append, fillSegments, fillSegments, ih]
      cases segment.text values with
      | error fault => rfl
      | ok text =>
          cases fillSegments values front with
          | error fault => rfl
          | ok others =>
              cases fillSegments values back with
              | error fault => rfl
              | ok more => exact congrArg Except.ok (String.append_assoc).symm

theorem fillSegments_literal (values : Dict Value) (text : List Char) :
    fillSegments values (text.map .char) = .ok (String.ofList text) := by
  induction text with
  | nil => rfl
  | cons c text ih =>
      rw [List.map_cons, fillSegments, ih]
      simp [Segment.text]

theorem fillSegments_slot {values : Dict Value} {raw : List Char} (h : Text.trim raw ≠ []) :
    fillSegments values [.slot raw] =
      match Dict.get? values (String.ofList (Text.trim raw)) with
      | some value => .ok value.text
      | none => .error (.noValue (String.ofList (Text.trim raw))) := by
  simp only [fillSegments, Segment.text, slotText, if_neg h]
  cases Dict.get? values (String.ofList (Text.trim raw)) <;> simp

/-- The segments of the pieces are filled if every name has a value, and otherwise the leftmost
name without one is missed. -/
theorem fillSegments_pieces (values : Dict Value) {pieces : List Piece}
    (h : ∀ piece ∈ pieces, piece.Sound) :
    fillSegments values (pieces.flatMap Piece.segments) =
      match missing? values pieces with
      | none => .ok (String.join (pieces.map (Piece.shown values)))
      | some name => .error (.noValue name) := by
  induction pieces with
  | nil => rfl
  | cons piece pieces ih =>
      obtain ⟨hpiece, hpieces⟩ := List.forall_mem_cons.1 h
      rw [List.flatMap_cons, fillSegments_append, ih hpieces]
      cases piece with
      | literal text =>
          have hmissing : missing? values (.literal text :: pieces) = missing? values pieces := rfl
          rw [hmissing, Piece.segments, fillSegments_literal]
          cases missing? values pieces <;> simp [bind, Except.bind, pure, Except.pure, Piece.shown]
      | slot raw =>
          rw [Piece.segments, fillSegments_slot hpiece.2.2]
          cases hvalue : Dict.get? values (String.ofList (Text.trim raw)) with
          | none =>
              have hmissing : missing? values (.slot raw :: pieces) =
                  some (String.ofList (Text.trim raw)) := by
                simp [missing?, names, Piece.name?, hvalue]
              rw [hmissing]
              rfl
          | some value =>
              have hmissing : missing? values (.slot raw :: pieces) = missing? values pieces := by
                simp [missing?, names, Piece.name?, hvalue]
              rw [hmissing]
              cases missing? values pieces <;>
                simp [bind, Except.bind, pure, Except.pure, Piece.shown, hvalue]

/-- A template that is put together from literal texts and sound slots is filled with the literal
texts and the texts of the values, one after the other. If a name has no value, the leftmost such
name is reported. -/
theorem fill_assembled {pieces : List Piece} (h : ∀ piece ∈ pieces, piece.Sound)
    (values : Dict Value) :
    match missing? values pieces with
    | none =>
        fill (assembled pieces) values = .ok (String.join (pieces.map (Piece.shown values))) ∧
          Builtin.formatted (.string (assembled pieces)) (.object values) =
            .ok (.string (String.join (pieces.map (Piece.shown values))))
    | some name =>
        fill (assembled pieces) values = .error (.noValue name) ∧
          Builtin.formatted (.string (assembled pieces)) (.object values) =
            .error (.runtime ("FORMAT placeholder '" ++ name ++ "' has no matching value")) := by
  have hfill := fillSegments_pieces values h
  rw [← segments_assembled h] at hfill
  change fill (assembled pieces) values = _ at hfill
  cases hmissing : missing? values pieces with
  | none =>
      simp only [hmissing] at hfill ⊢
      refine ⟨hfill, ?_⟩
      simp only [Builtin.formatted, hfill]
  | some name =>
      simp only [hmissing] at hfill ⊢
      refine ⟨hfill, ?_⟩
      simp only [Builtin.formatted, hfill]
      rfl

/-- Braces that touch at the borders of pieces, and a value whose braces are left alone. Without the
second value, its name is reported. -/
theorem fill_assembled_braces :
    let pieces : List Piece :=
      [.literal ['{'], .slot [' ', 'k', ' '], .literal ['}'], .slot ['m']]
    let values : Dict Value := [("k", .string "\x7bm\x7d")]
    assembled pieces = "\x7b\x7b\x7b k \x7d\x7d\x7d\x7bm\x7d" ∧
      fill (assembled pieces) (values ++ [("m", .null)]) = .ok "\x7b\x7bm\x7d\x7dnull" ∧
      fill (assembled pieces) values = .error (.noValue "m") := by
  intro pieces values
  have hsound : ∀ piece ∈ pieces, piece.Sound := by
    simp only [pieces, List.forall_mem_cons]
    exact ⟨trivial, ⟨by decide, by decide, by decide⟩, trivial,
      ⟨by decide, by decide, by decide⟩, nofun⟩
  have hfull := fill_assembled hsound (values ++ [("m", .null)])
  have hpart := fill_assembled hsound values
  have hnone : missing? (values ++ [("m", .null)]) pieces = none := by decide +kernel
  have hsome : missing? values pieces = some "m" := by decide +kernel
  rw [hnone] at hfull
  rw [hsome] at hpart
  exact ⟨rfl, hfull.1, hpart.1⟩

end ToolScript.Template
