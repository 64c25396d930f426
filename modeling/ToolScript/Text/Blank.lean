/-!
# Blank and control characters

The blank characters are those with the Unicode property `White_Space`. They
separate tokens, and they are trimmed from the names of template slots. The
control characters are those of the Unicode category `Cc`; string literals write
them as escapes.
-/

namespace ToolScript.Text

/-- The first and last code points of each run of blank characters. -/
def blankRanges : List (Nat × Nat) :=
  [(0x09, 0x0d), (0x20, 0x20), (0x85, 0x85), (0xa0, 0xa0), (0x1680, 0x1680),
    (0x2000, 0x200a), (0x2028, 0x2029), (0x202f, 0x202f), (0x205f, 0x205f),
    (0x3000, 0x3000)]

/-- Whether a character has the property `White_Space`. -/
def isBlank (c : Char) : Bool :=
  blankRanges.any fun range => range.1 ≤ c.toNat && c.toNat ≤ range.2

/-- Whether a character is a control character. -/
def isControl (c : Char) : Bool :=
  c.toNat < 0x20 || (0x7f ≤ c.toNat && c.toNat < 0xa0)

/-- The text without the blank characters at its two ends. -/
def trim (cs : List Char) : List Char :=
  ((cs.dropWhile isBlank).reverse.dropWhile isBlank).reverse

/-- The blank characters number twenty-five. -/
example : (blankRanges.map fun range => range.2 + 1 - range.1).sum = 25 := by decide

end ToolScript.Text
