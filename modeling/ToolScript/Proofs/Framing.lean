import Mathlib.Data.List.Induction
import Mathlib.Data.List.Nodup
import ToolScript.Scope

/-!
# Scopes under any sequence of operations

A frame is changed only while it is the innermost one. So what lies below a frame that is put in
is found again when that frame is taken off, whatever was done in between. The frame itself then
holds what was bound in it and not removed since, in the order in which the names came in.
-/

namespace ToolScript

namespace Dict

variable {α : Type u}

theorem keys_erase (entries : Dict α) (name : String) :
    keys (erase entries name) = (keys entries).filter (· ≠ name) := by
  simp only [keys, erase, List.filter_map]
  rfl

theorem get?_erase (entries : Dict α) (name other : String) :
    get? (erase entries name) other = if name = other then none else get? entries other := by
  induction entries with
  | nil => simp [erase]
  | cons entry rest ih =>
      rw [erase_cons]
      by_cases hname : entry.1 = name
      · subst hname
        simp only [if_true, ih, get?]
        split <;> rfl
      · simp only [hname, if_false, get?, ih]
        by_cases hother : entry.1 = other
        · simp [hother, Ne.symm (hother ▸ hname)]
        · simp [hother]

theorem Unique.erase {entries : Dict α} (h : Unique entries) (name : String) :
    Unique (erase entries name) := by
  unfold Unique at *
  rw [keys_erase]
  exact h.filter _

theorem get?_isSome_iff {entries : Dict α} {name : String} :
    (get? entries name).isSome = true ↔ name ∈ keys entries := by
  induction entries with
  | nil => simp [keys]
  | cons entry rest ih =>
      simp only [keys] at ih
      by_cases h : entry.1 = name
      · simp [keys, h]
      · simp [keys, h, ih, Ne.symm h]

end Dict

namespace Scope

/-- A change of the innermost frame. -/
inductive Edit where
  | set (name : String) (value : Value)
  | delete (name : String)

/-- An operation on a scope. -/
inductive Op where
  | edit (edit : Edit)
  | push
  | pop

/-- The name that an edit is about. -/
def Edit.name : Edit → String
  | .set name _ | .delete name => name

/-- The value that an edit gives to its name. -/
def Edit.value? : Edit → Option Value
  | .set _ value => some value
  | .delete _ => none

/-- The frame after an edit. -/
def Edit.apply (frame : Frame) : Edit → Frame
  | .set name value => Dict.insert frame name value
  | .delete name => Dict.erase frame name

/-- Whether the operation puts in a frame. -/
def Op.isPush : Op → Bool
  | .push => true
  | _ => false

/-- The scope after an operation. -/
def step (scope : Scope) : Op → Scope
  | .edit (.set name value) => scope.set name value
  | .edit (.delete name) => (scope.erase name).2
  | .push => scope.push
  | .pop => scope.pop

/-- The scope after the operations. -/
def run (scope : Scope) (ops : List Op) : Scope :=
  ops.foldl step scope

/-- The frame that an operation takes off. -/
def takenBy (scope : Scope) : Op → Option Frame
  | .pop => scope.pop?.map Prod.fst
  | _ => none

/-- The frames that the operations take off, one after the other. -/
def takenOff (scope : Scope) : List Op → List Frame
  | [] => []
  | op :: rest => (scope.takenBy op).toList ++ (scope.step op).takenOff rest

/-- How many frames lie inside a frame after the operations, if `inside` of them did before. There
is no answer if the frame itself is taken off on the way. -/
def inside? (inside : Nat) : List Op → Option Nat
  | [] => some inside
  | .edit _ :: rest => inside? inside rest
  | .push :: rest => inside? (inside + 1) rest
  | .pop :: rest =>
      match inside with
      | 0 => none
      | fewer + 1 => inside? fewer rest

/-- The edits of a frame that has `inside` frames inside it at first. -/
def editsOf (inside : Nat) : List Op → List Edit
  | [] => []
  | .edit edit :: rest =>
      if inside = 0 then edit :: editsOf inside rest else editsOf inside rest
  | .push :: rest => editsOf (inside + 1) rest
  | .pop :: rest => editsOf (inside - 1) rest

theorem frames_edit (scope : Scope) (edit : Edit) :
    (scope.step (.edit edit)).frames = edit.apply scope.inner :: scope.outer := by
  cases edit <;> rfl

theorem frames_push (scope : Scope) : (scope.step .push).frames = [] :: scope.frames := rfl

theorem pop?_eq_none_iff {scope : Scope} : scope.pop? = none ↔ scope.depth = 1 := by
  obtain ⟨inner, _ | ⟨next, rest⟩⟩ := scope <;> simp [pop?, depth, frames]

theorem pop_of_pop?_eq_none {scope : Scope} (h : scope.pop? = none) : scope.pop = scope := by
  rw [pop, h]

/-- A scope with a frame inside others is left without it. -/
theorem pop?_of_frames {scope rest : Scope} {frame : Frame}
    (h : scope.frames = frame :: rest.frames) : scope.pop? = some (frame, rest) := by
  obtain ⟨inner, outer⟩ := scope
  obtain ⟨rfl, rfl⟩ := List.cons.inj h
  rfl

theorem pop_of_pop? {scope rest : Scope} {frame : Frame} (h : scope.pop? = some (frame, rest)) :
    scope.pop = rest := by
  rw [pop, h]

/-- Every operation keeps the balance of frames put in and taken off. -/
theorem depth_step (scope : Scope) (op : Op) :
    (scope.step op).depth + (scope.takenBy op).toList.length =
      scope.depth + (if op.isPush then 1 else 0) := by
  cases op with
  | edit edit => cases edit <;> rfl
  | push => rfl
  | pop =>
      obtain ⟨inner, _ | ⟨next, rest⟩⟩ := scope <;> rfl

/-- Every operation leaves frames without a name twice. -/
theorem unique_step {scope : Scope} (h : ∀ frame ∈ scope.frames, Dict.Unique frame) (op : Op) :
    ∀ frame ∈ (scope.step op).frames, Dict.Unique frame := by
  obtain ⟨hinner, houter⟩ := List.forall_mem_cons.1 h
  cases op with
  | edit edit =>
      rw [frames_edit]
      refine List.forall_mem_cons.2 ⟨?_, houter⟩
      cases edit with
      | set name value => exact hinner.insert name value
      | delete name => exact hinner.erase name
  | push => exact List.forall_mem_cons.2 ⟨List.nodup_nil, h⟩
  | pop =>
      obtain ⟨inner, _ | ⟨next, rest⟩⟩ := scope
      · exact h
      · exact houter

theorem run_cons (scope : Scope) (op : Op) (rest : List Op) :
    scope.run (op :: rest) = (scope.step op).run rest := rfl

theorem run_append (scope : Scope) (ops rest : List Op) :
    scope.run (ops ++ rest) = (scope.run ops).run rest :=
  List.foldl_append

/-- The depth counts the frames put in, less those taken off. -/
theorem depth_run (scope : Scope) (ops : List Op) :
    (scope.run ops).depth + (scope.takenOff ops).length =
      scope.depth + ops.countP Op.isPush := by
  induction ops generalizing scope with
  | nil => rfl
  | cons op rest ih =>
      have hstep := scope.depth_step op
      have hrest := ih (scope.step op)
      rw [run_cons, takenOff, List.length_append, List.countP_cons]
      omega

theorem unique_run {scope : Scope} (h : ∀ frame ∈ scope.frames, Dict.Unique frame)
    (ops : List Op) : ∀ frame ∈ (scope.run ops).frames, Dict.Unique frame := by
  induction ops generalizing scope with
  | nil => exact h
  | cons op rest ih => exact ih (unique_step h op)

/-- As long as a frame is not taken off, its own edits are all that happens to it, and nothing at
all happens to the frames around it. -/
theorem frames_run (scope : Scope) (inner : List Frame) {outer : List Frame} {frame : Frame}
    {ops : List Op} {inside : Nat} (h : inside? inner.length ops = some inside)
    (hscope : scope.frames = inner ++ frame :: outer) :
    ∃ later, later.length = inside ∧ (scope.run ops).frames =
      later ++ (editsOf inner.length ops).foldl Edit.apply frame :: outer := by
  induction ops generalizing scope inner frame with
  | nil => exact ⟨inner, Option.some.inj h, hscope⟩
  | cons op rest ih =>
      rw [run_cons]
      cases op with
      | edit edit =>
          have hstep := scope.frames_edit edit
          cases inner with
          | nil =>
              obtain ⟨hinner, houter⟩ := List.cons.inj hscope
              rw [hinner, houter] at hstep
              exact ih _ [] h hstep
          | cons first inner =>
              obtain ⟨-, houter⟩ := List.cons.inj hscope
              rw [houter] at hstep
              exact ih _ (edit.apply scope.inner :: inner) h hstep
      | push =>
          refine ih _ ([] :: inner) h ?_
          rw [frames_push, hscope]
          rfl
      | pop =>
          cases inner with
          | nil => cases h
          | cons first inner =>
              refine ih _ inner h ?_
              obtain ⟨-, houter⟩ := List.cons.inj hscope
              obtain ⟨top, _ | ⟨next, others⟩⟩ := scope
              · simp at houter
              · exact houter

/-- Where the frame that was put in is the innermost one again, it holds the result of its own
edits, and taking it off brings back the scope that it was put into. -/
theorem pop?_run_push (scope : Scope) {ops : List Op} (h : inside? 0 ops = some 0) :
    (scope.push.run ops).pop? = some ((editsOf 0 ops).foldl Edit.apply [], scope) := by
  obtain ⟨later, hlater, hframes⟩ := frames_run scope.push [] h rfl
  obtain rfl := List.eq_nil_of_length_eq_zero hlater
  exact pop?_of_frames hframes

/-- The value that the last edit of the name gives to it. -/
def latest (edits : List Edit) (name : String) : Option Value :=
  (edits.reverse.find? (·.name = name)).bind Edit.value?

/-- The edit with the number `i` brings the name in: it binds the name, and the edits before it have
left the name without a value. -/
def BroughtIn (edits : List Edit) (name : String) (i : Nat) : Prop :=
  (∃ value, edits[i]? = some (.set name value)) ∧ latest (edits.take i) name = none

/-- No later edit brings the name in again. -/
def LastBroughtIn (edits : List Edit) (name : String) (i : Nat) : Prop :=
  BroughtIn edits name i ∧ ∀ j, BroughtIn edits name j → j ≤ i

/-- The frame holds what the edits leave: each name once, with its latest value, in the order in
which the names were last brought in. -/
structure Records (edits : List Edit) (frame : Frame) : Prop where
  unique : Dict.Unique frame
  values : ∀ name, Dict.get? frame name = latest edits name
  order : ∃ place : String → Nat,
    (∀ name ∈ Dict.keys frame, LastBroughtIn edits name (place name)) ∧
    (Dict.keys frame).Pairwise fun a b => place a < place b

section Edits

variable {edits : List Edit} {edit : Edit} {name : String} {frame : Frame} {i : Nat}

theorem latest_concat (edits : List Edit) (edit : Edit) (name : String) :
    latest (edits ++ [edit]) name =
      if edit.name = name then edit.value? else latest edits name := by
  by_cases h : edit.name = name <;> simp [latest, h]

/-- One more edit brings in a name at most at its own place. -/
theorem broughtIn_concat : BroughtIn (edits ++ [edit]) name i ↔
    BroughtIn edits name i ∨
      i = edits.length ∧ (∃ value, edit = .set name value) ∧ latest edits name = none := by
  unfold BroughtIn
  rcases Nat.lt_trichotomy i edits.length with hlt | rfl | hgt
  · rw [List.getElem?_append_left hlt, List.take_append_of_le_length (Nat.le_of_lt hlt)]
    simp [Nat.ne_of_lt hlt]
  · simp
  · have hnone : (edits ++ [edit])[i]? = none :=
      List.getElem?_eq_none (by simpa using Nat.succ_le_of_lt hgt)
    simp [hnone, List.getElem?_eq_none (Nat.le_of_lt hgt), Nat.ne_of_gt hgt]

theorem BroughtIn.lt_length (h : BroughtIn edits name i) : i < edits.length := by
  obtain ⟨⟨value, hvalue⟩, -⟩ := h
  exact (List.getElem?_eq_some_iff.1 hvalue).1

/-- An edit that does not bring the name in leaves the place where it was last brought in. -/
theorem LastBroughtIn.concat (h : LastBroughtIn edits name i)
    (hedit : ∀ value, edit = .set name value → latest edits name ≠ none) :
    LastBroughtIn (edits ++ [edit]) name i := by
  refine ⟨broughtIn_concat.2 (.inl h.1), fun j hj => ?_⟩
  rcases broughtIn_concat.1 hj with hj | ⟨-, ⟨value, hvalue⟩, hnone⟩
  · exact h.2 j hj
  · exact absurd hnone (hedit value hvalue)

/-- An edit that brings the name in is the last that does. -/
theorem lastBroughtIn_concat (value : Value) (h : latest edits name = none) :
    LastBroughtIn (edits ++ [.set name value]) name edits.length := by
  refine ⟨broughtIn_concat.2 (.inr ⟨rfl, ⟨value, rfl⟩, h⟩), fun j hj => ?_⟩
  simpa [Nat.lt_succ_iff] using hj.lt_length

theorem records_nil : Records [] [] where
  unique := List.nodup_nil
  values _ := rfl
  order := ⟨fun _ => 0, nofun, .nil⟩

theorem Records.mem_keys_iff (h : Records edits frame) :
    name ∈ Dict.keys frame ↔ latest edits name ≠ none := by
  rw [← Dict.get?_isSome_iff, h.values, Option.isSome_iff_ne_none]

/-- Binding a name brings it in behind the others, unless it is there already. -/
theorem Records.set (h : Records edits frame) (name : String) (value : Value) :
    Records (edits ++ [.set name value]) (Dict.insert frame name value) where
  unique := h.unique.insert name value
  values other := by
    rw [latest_concat, Dict.get?_insert, h.values]
    rfl
  order := by
    obtain ⟨place, hplace, hpairwise⟩ := h.order
    rw [Dict.keys_insert]
    split
    · next hmem =>
        refine ⟨place, fun other hother => (hplace other hother).concat fun _ _ => ?_, hpairwise⟩
        exact h.mem_keys_iff.1 hother
    · next hmem =>
        have hother {other : String} (hother : other ∈ Dict.keys frame) : other ≠ name :=
          fun heq => hmem (heq ▸ hother)
        refine ⟨Function.update place name edits.length, fun other hin => ?_, ?_⟩
        · rcases List.mem_append.1 hin with hin | hin
          · rw [Function.update_of_ne (hother hin)]
            exact (hplace other hin).concat fun _ heq =>
              absurd (Edit.set.inj heq).1.symm (hother hin)
          · obtain rfl := List.mem_singleton.1 hin
            rw [Function.update_self]
            exact lastBroughtIn_concat value (not_not.1 fun hne => hmem (h.mem_keys_iff.2 hne))
        · refine List.pairwise_append.2 ⟨?_, List.pairwise_singleton _ _, ?_⟩
          · refine hpairwise.imp_of_mem fun {a b} ha hb hlt => ?_
            rwa [Function.update_of_ne (hother ha), Function.update_of_ne (hother hb)]
          · intro a ha b hb
            rw [List.mem_singleton.1 hb, Function.update_self, Function.update_of_ne (hother ha)]
            exact (hplace a ha).1.lt_length

/-- Removing a name leaves the order of the others. -/
theorem Records.delete (h : Records edits frame) (name : String) :
    Records (edits ++ [.delete name]) (Dict.erase frame name) where
  unique := h.unique.erase name
  values other := by
    rw [latest_concat, Dict.get?_erase, h.values]
    rfl
  order := by
    obtain ⟨place, hplace, hpairwise⟩ := h.order
    rw [Dict.keys_erase]
    refine ⟨place, fun other hother => ?_, hpairwise.filter _⟩
    exact (hplace other (List.mem_of_mem_filter hother)).concat nofun

/-- From an empty frame on, a frame holds what its edits leave. -/
theorem records_edits (edits : List Edit) : Records edits (edits.foldl Edit.apply []) := by
  induction edits using List.reverseRecOn with
  | nil => exact records_nil
  | append_singleton edits edit ih =>
      rw [List.foldl_append]
      cases edit with
      | set name value => exact ih.set name value
      | delete name => exact ih.delete name

end Edits

/-- A name has the value that it has in the innermost frame with the name. -/
theorem get?_eq_some_iff {scope : Scope} {name : String} {value : Value} :
    scope.get? name = some value ↔ ∃ inner frame outer, scope.frames = inner ++ frame :: outer ∧
      (∀ other ∈ inner, name ∉ Dict.keys other) ∧ Dict.get? frame name = some value := by
  have hnone (frame : Frame) : Dict.get? frame name = none ↔ name ∉ Dict.keys frame := by
    rw [← Dict.get?_isSome_iff, Option.not_isSome_iff_eq_none]
  simp only [get?, List.findSome?_eq_some_iff, hnone]
  exact exists_congr fun inner => exists_congr fun frame => exists_congr fun outer =>
    and_congr_right fun _ => and_comm

theorem contains_iff {scope : Scope} {name : String} :
    scope.contains name = true ↔ ∃ frame ∈ scope.frames, name ∈ Dict.keys frame := by
  simp only [contains, get?, List.findSome?_isSome_iff, Dict.get?_isSome_iff]

end Scope

open Scope

/-- Scopes made from one frame by any operations: the depth counts frames put in less frames taken
off, the last frame is never taken off, a name has the value of the innermost frame with the name,
and frames hold each name once. Removing a name gives its value in the innermost frame and leaves
the others in order. When the frame that was put in is taken off again, the scope is the one before,
and the frame holds what was bound at its level and not removed since. -/
theorem scope_stack_laws {start : Frame} (hstart : Dict.Unique start) (history : List Op) :
    let scope := (ofFrame start).run history
    1 ≤ scope.depth ∧
      scope.depth + ((ofFrame start).takenOff history).length =
        1 + history.countP Op.isPush ∧
      (scope.pop? = none ↔ scope.depth = 1) ∧ (scope.pop? = none → scope.pop = scope) ∧
      (∀ name value, scope.get? name = some value ↔
        ∃ inner frame outer, scope.frames = inner ++ frame :: outer ∧
          (∀ other ∈ inner, name ∉ Dict.keys other) ∧ Dict.get? frame name = some value) ∧
      (∀ name, (scope.contains name = true ↔ ∃ value, scope.get? name = some value) ∧
        (scope.contains name = true ↔ ∃ frame ∈ scope.frames, name ∈ Dict.keys frame)) ∧
      (∀ frame ∈ scope.frames, Dict.Unique frame) ∧
      (∀ name, (scope.erase name).1 = Dict.get? scope.inner name ∧
        (scope.erase name).2.outer = scope.outer ∧
        Dict.keys (scope.erase name).2.inner = (Dict.keys scope.inner).filter (· ≠ name) ∧
        ∀ other, Dict.get? (scope.erase name).2.inner other =
          if name = other then none else Dict.get? scope.inner other) ∧
      ∀ ops : List Op, inside? 0 ops = some 0 → ∃ frame,
        (scope.push.run ops).pop? = some (frame, scope) ∧
        scope.run (.push :: ops ++ [.pop]) = scope ∧ Records (editsOf 0 ops) frame := by
  intro scope
  refine ⟨Nat.succ_pos _, depth_run (ofFrame start) history, pop?_eq_none_iff,
    pop_of_pop?_eq_none, fun name value => get?_eq_some_iff,
    fun name => ⟨Option.isSome_iff_exists, contains_iff⟩,
    unique_run (by simpa [frames, ofFrame] using hstart) history,
    fun name => ⟨rfl, rfl, Dict.keys_erase _ _, Dict.get?_erase _ _⟩, fun ops hops => ?_⟩
  have hpop := scope.pop?_run_push hops
  refine ⟨_, hpop, ?_, records_edits _⟩
  rw [List.cons_append, run_cons, run_append]
  exact pop_of_pop? hpop

/-- A name is bound, shadowed further in, removed, and bound again behind the others; the frame
below is never taken off. -/
theorem scope_stack_laws_nested :
    let history : List Op := [.pop, .push, .edit (.set "x" (.bool true)), .pop]
    let ops : List Op := [.edit (.set "a" (.bool true)), .edit (.set "b" .null), .push,
      .edit (.set "a" (.string "s")), .edit (.delete "b"), .pop, .edit (.delete "a"),
      .edit (.set "x" .null), .edit (.set "a" (.bool false)), .edit (.set "b" (.string "t"))]
    let scope := (ofFrame [("x", .string "u")]).run history
    let frame : Frame := [("b", .string "t"), ("x", .null), ("a", .bool false)]
    inside? 0 ops = some 0 ∧ (scope.push.run ops).pop? = some (frame, scope) ∧
      scope.run (.push :: ops ++ [.pop]) = scope ∧ scope.get? "x" = some (.string "u") ∧
      Records (editsOf 0 ops) frame := by
  intro history ops scope frame
  have hunique : Dict.Unique ([("x", .string "u")] : Frame) := (by decide : List.Nodup ["x"])
  obtain ⟨-, -, -, -, hget, -, -, -, hpush⟩ := scope_stack_laws hunique history
  have hops : inside? 0 ops = some 0 := rfl
  obtain ⟨held, hpop, hback, hrecords⟩ := hpush ops hops
  have hheld : (scope.push.run ops).pop? = some (frame, scope) := rfl
  obtain rfl : held = frame := (Prod.mk.inj (Option.some.inj (hpop.symm.trans hheld))).1
  exact ⟨hops, hheld, hback, (hget _ _).2 ⟨[], _, [], rfl, nofun, rfl⟩, hrecords⟩

end ToolScript
