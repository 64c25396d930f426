import ToolScript.Value

/-!
# Scopes

A scope is a stack of frames, of which there is always one. Names are looked up from
the innermost frame outward; binding and removing a name touch the innermost frame
alone, and the outermost frame is never taken off.
-/

namespace ToolScript

/-- The bindings of one level. -/
abbrev Frame := Dict Value

/-- A stack of frames: the innermost one, and those around it from the inside out. -/
structure Scope where
  inner : Frame
  outer : List Frame

namespace Scope

/-- The scope with one frame. -/
def ofFrame (frame : Frame) : Scope :=
  ⟨frame, []⟩

/-- The scope without any binding. -/
def empty : Scope :=
  ofFrame []

/-- The frames from the inside out. -/
def frames (scope : Scope) : List Frame :=
  scope.inner :: scope.outer

/-- The number of frames. -/
def depth (scope : Scope) : Nat :=
  scope.frames.length

/-- The outermost frame. -/
def root (scope : Scope) : Frame :=
  scope.outer.getLastD scope.inner

/-- The value of a name in the innermost frame that has it. -/
def get? (scope : Scope) (name : String) : Option Value :=
  scope.frames.findSome? fun frame => Dict.get? frame name

/-- Whether some frame has the name. -/
def contains (scope : Scope) (name : String) : Bool :=
  (scope.get? name).isSome

/-- Binds a name in the innermost frame. -/
def set (scope : Scope) (name : String) (value : Value) : Scope :=
  { scope with inner := Dict.insert scope.inner name value }

/-- Removes a name from the innermost frame, and gives the value that it had there. -/
def erase (scope : Scope) (name : String) : Option Value × Scope :=
  (Dict.get? scope.inner name, { scope with inner := Dict.erase scope.inner name })

/-- Puts an empty frame inside the others. -/
def push (scope : Scope) : Scope :=
  ⟨[], scope.frames⟩

/-- Takes the innermost frame off, unless it is the only one. -/
def pop? (scope : Scope) : Option (Frame × Scope) :=
  match scope.outer with
  | [] => none
  | next :: rest => some (scope.inner, ⟨next, rest⟩)

/-- The scope without its innermost frame; a single frame stays. -/
def pop (scope : Scope) : Scope :=
  match scope.pop? with
  | some (_, rest) => rest
  | none => scope

@[simp] theorem pop?_push (scope : Scope) : scope.push.pop? = some ([], scope) := rfl

@[simp] theorem pop_push (scope : Scope) : scope.push.pop = scope := rfl

@[simp] theorem outer_set (scope : Scope) (name : String) (value : Value) :
    (scope.set name value).outer = scope.outer := rfl

theorem get?_set (scope : Scope) (name other : String) (value : Value) :
    (scope.set name value).get? other = if name = other then some value else scope.get? other := by
  simp only [get?, frames, set, List.findSome?_cons, Dict.get?_insert]
  by_cases h : name = other <;> simp only [h, if_true, if_false]

end Scope

end ToolScript
