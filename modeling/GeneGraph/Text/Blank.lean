import GeneGraph.Text.CharRange

/-!
# White space

The property `White_Space` of Unicode: twenty-five characters, among them every character
that separates words, lines or paragraphs.
-/

namespace GeneGraph.Text

/-- The code points with the property `White_Space`. -/
def blankRanges : List (Nat × Nat) :=
  [(0x0009, 0x000D), (0x0020, 0x0020), (0x0085, 0x0085), (0x00A0, 0x00A0), (0x1680, 0x1680),
   (0x2000, 0x200A), (0x2028, 0x2029), (0x202F, 0x202F), (0x205F, 0x205F), (0x3000, 0x3000)]

def isBlank (c : Char) : Bool := inRanges blankRanges c

end GeneGraph.Text
