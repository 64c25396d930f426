import Mathlib
import ToolScript.Proofs.Locating.Failing
import ToolScript.Proofs.Locating.Lines
import ToolScript.Report

/-!
# Reports point into the source

The place of a failure is that of a character of the source text or of its end. The report
shows the line of the place and puts the caret below it, unless the place is the end of a text
that has no open line.
-/

namespace ToolScript

namespace Report

/-- The report shows the line, and under it a caret for the column. Behind the heading and two
more lines come the source line and the line of the caret, with gutters of one width. What
stands between the gutter and the caret has a tab under each tab of the source line. -/
def PointsAt (report : Report) (column : Nat) (line : String) : Prop :=
  ∃ arrow bar gutter pad offset notes : String,
    report.text = report.kind ++ ": " ++ report.message ++ "\n" ++ arrow ++ "\n" ++ bar ++
      "\n" ++ gutter ++ line ++ "\n" ++ pad ++ offset ++ "^" ++ notes ∧
    (∀ part ∈ [arrow, bar, gutter, pad], '\n' ∉ part.toList) ∧
    (notes = "" ∨ notes.toList.head? = some '\n') ∧
    pad.length = gutter.length ∧
    offset.length = column - 1 ∧
    ∀ i < column - 1, offset.toList[i]? =
      some (if line.toList[i]? = some '\t' then '\t' else ' ')

theorem not_mem_toDigits (n : Nat) : '\n' ∉ Nat.toDigits 10 n := by
  intro hmem
  have hdigit := Nat.isDigit_of_mem_toDigits (by decide) (by decide) hmem
  revert hdigit
  decide

theorem length_caretOffset {line : String} {column : Nat} (h : column - 1 ≤ line.length) :
    (caretOffset line column).length = column - 1 := by
  rw [← String.length_toList] at h
  simp [caretOffset, h]

theorem getElem?_caretOffset {line : String} {column i : Nat} (h : column - 1 ≤ line.length)
    (hi : i < column - 1) :
    (caretOffset line column).toList[i]? =
      some (if line.toList[i]? = some '\t' then '\t' else ' ') := by
  rw [← String.length_toList] at h
  have hlt : i < line.toList.length := Nat.lt_of_lt_of_le hi h
  simp [caretOffset, hi, hlt]

/-- The notes begin on lines of their own. -/
theorem head?_notes (notes : List String) :
    String.join (notes.map fun note => "\n  note: " ++ note) = "" ∨
      (String.join (notes.map fun note => "\n  note: " ++ note)).toList.head? = some '\n' := by
  cases notes with
  | nil => exact .inl rfl
  | cons note notes => exact .inr (by simp [String.join_cons])

theorem text_eq {report : Report} {p : Position} {line : String}
    (hposition : report.position = some p) (hline : report.sourceLine = some line) :
    report.text = report.kind ++ ": " ++ report.message ++ excerpt p line ++
      String.join (report.notes.map fun note => "\n  note: " ++ note) := by
  simp only [text, hposition, hline]

/-- A report with a line that reaches up to the place points at it. -/
theorem pointsAt {report : Report} {p : Position} {line : String}
    (hposition : report.position = some p) (hline : report.sourceLine = some line)
    (h : p.column - 1 ≤ line.length) : report.PointsAt p.column line := by
  obtain ⟨pad, hpad⟩ : ∃ pad, pad = String.ofList (List.replicate (toString p.line).length ' ') :=
    ⟨_, rfl⟩
  refine ⟨pad ++ " --> " ++ p.text, pad ++ " |", toString p.line ++ " | ", pad ++ " | ",
    caretOffset line p.column, _, ?_, ?_, head?_notes report.notes, ?_, length_caretOffset h,
    fun i hi => getElem?_caretOffset h hi⟩
  · rw [text_eq hposition hline]
    unfold excerpt
    simp only [hpad, ← String.append_assoc]
  · simp [hpad, Position.text, not_mem_toDigits]
  · simp [hpad]

end Report

/-- Every failure of a source text is located at a character of the text or at its end. The
report shows the line of the place with the caret below it, unless the place is the end of a
text that is empty or ends with a line break. -/
theorem failure_located {source : String} {failure : Failure} (h : FailureOf source failure) :
    ∃ p pre post, failure.position = some p ∧
      source.toList = pre ++ post ∧ p = Position.start.after pre ∧
      p.line ≤ source.length + 1 ∧ p.column ≤ source.length + 1 ∧
      ((Report.ofFailure failure source).sourceLine = none ↔
        p = Position.start.after source.toList ∧ p.column = 1 ∧
          (source = "" ∨ source.toList.getLast? = some '\n')) ∧
      ∀ line, (Report.ofFailure failure source).sourceLine = some line →
        (Text.lines source.toList)[p.line - 1]? = some line.toList ∧
        Text.Holds source.toList p line.toList ∧
        (Report.ofFailure failure source).PointsAt p.column line := by
  obtain ⟨p, hposition, hmarks⟩ := h.marks
  obtain ⟨pre, post, hsource, hplace, -⟩ := id hmarks
  have hline : (Report.ofFailure failure source).sourceLine = Text.line? source p.line := by
    simp only [Report.ofFailure, hposition, Option.bind_some]
  have hlength : pre.length ≤ source.length := by
    rw [← String.length_toList, hsource, List.length_append]
    exact Nat.le_add_right _ _
  have hbound := Position.after_le pre
  rw [← hplace] at hbound
  refine ⟨p, pre, post, hposition, hsource, hplace, by omega, by omega, ?_, fun line hsome => ?_⟩
  · rw [hline]
    exact Text.line?_eq_none_iff hmarks
  · have hholds := Text.holds_of_line? hmarks (hline.symm.trans hsome)
    refine ⟨?_, hholds, Report.pointsAt hposition hsome ?_⟩
    · rw [hline, Text.line?, Option.map_eq_some_iff] at hsome
      obtain ⟨cs, hcs, rfl⟩ := hsome
      rw [hcs, String.toList_ofList]
    · rw [← String.length_toList]
      exact hholds.reaches

/-- A variable that does not exist, on the second line and behind a tab. -/
theorem failure_located_tab :
    let host : Host Unit := ⟨fun _ => none, fun _ => 0⟩
    let failure : Failure := ⟨.undefinedVariable "b", some ⟨2, 6⟩⟩
    let report := Report.ofFailure failure "NULL\r\nNOT \tb"
    (Script.run host 1 ⟨.empty, (), 0⟩ "NULL\r\nNOT \tb").outcome = .failed failure ∧
      report.sourceLine = some "NOT \tb" ∧ report.PointsAt 6 "NOT \tb" := by
  have hrun : (Script.run (σ := Unit) ⟨fun _ => none, fun _ => 0⟩ 1 ⟨.empty, (), 0⟩
      "NULL\r\nNOT \tb").outcome = .failed ⟨.undefinedVariable "b", some ⟨2, 6⟩⟩ := by
    cbv
  intro host failure report
  have hline : report.sourceLine = some "NOT \tb" := by decide
  obtain ⟨p, _, _, hposition, -, -, -, -, -, hshown⟩ :=
    failure_located (.run host 1 ⟨.empty, (), 0⟩ hrun)
  cases hposition
  exact ⟨hrun, hline, (hshown _ hline).2.2⟩

end ToolScript
