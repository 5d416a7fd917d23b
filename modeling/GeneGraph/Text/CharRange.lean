/-!
# Ranges of characters

A set of characters is written as a list of ranges of code points, both ends included.
-/

namespace GeneGraph.Text

/-- The code point of `c` lies in one of the ranges. -/
def inRanges (ranges : List (Nat × Nat)) (c : Char) : Bool :=
  ranges.any fun r => r.1 ≤ c.toNat && c.toNat ≤ r.2

end GeneGraph.Text
