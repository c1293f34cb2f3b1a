/-!
# Ranges of code points

Classes of characters are given as lists of ranges of code points, both ends included.
-/

namespace QueryCompiler.Text

/-- Whether a code point lies in one of the ranges. -/
def inRanges (ranges : List (Nat × Nat)) (n : Nat) : Bool :=
  ranges.any fun r => r.1 ≤ n && n ≤ r.2

end QueryCompiler.Text
