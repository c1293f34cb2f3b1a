import QueryCompiler.Text.CodePoints

/-!
# Blank characters

The characters with the Unicode property `White_Space`, and the text that is left when they are cut
from both ends.
-/

namespace QueryCompiler.Text

/-- The code points with the property `White_Space`, as ranges. -/
def blankRanges : List (Nat × Nat) :=
  [(0x9, 0xD), (0x20, 0x20), (0x85, 0x85), (0xA0, 0xA0), (0x1680, 0x1680), (0x2000, 0x200A),
    (0x2028, 0x2029), (0x202F, 0x202F), (0x205F, 0x205F), (0x3000, 0x3000)]

/-- Whether a character is white space. -/
def isBlank (c : Char) : Bool :=
  inRanges blankRanges c.toNat

/-- The characters between the leading and the trailing blanks. -/
def trimChars (s : List Char) : List Char :=
  ((s.dropWhile isBlank).reverse.dropWhile isBlank).reverse

/-- `trimChars` on strings. -/
def trim (s : String) : String :=
  .ofList (trimChars s.toList)

end QueryCompiler.Text
