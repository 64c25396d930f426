/-!
# Positions in a source text

A position is the line and the column of a character, both counted from one and
in characters. Reading a line break moves to the first column of the next line;
reading any other character moves one column on.
-/

namespace ToolScript

/-- The line and column of a character of a source text. -/
structure Position where
  line : Nat
  column : Nat
deriving DecidableEq, Repr

namespace Position

/-- Where every source text begins. -/
def start : Position := ⟨1, 1⟩

/-- The position behind the character `c` that stands at `p`. -/
def step (p : Position) (c : Char) : Position :=
  if c = '\n' then ⟨p.line + 1, 1⟩ else ⟨p.line, p.column + 1⟩

/-- The position behind the text `cs` that begins at `p`. -/
def after (p : Position) (cs : List Char) : Position :=
  cs.foldl step p

/-- How a position is named in messages. -/
def text (p : Position) : String :=
  "line " ++ toString p.line ++ ", column " ++ toString p.column

@[simp] theorem after_nil (p : Position) : p.after [] = p := rfl

@[simp] theorem after_cons (p : Position) (c : Char) (cs : List Char) :
    p.after (c :: cs) = (p.step c).after cs := rfl

theorem after_append (p : Position) (cs ds : List Char) :
    p.after (cs ++ ds) = (p.after cs).after ds :=
  List.foldl_append

end Position

end ToolScript
