/-!
# Ranges of code points

A property of characters is kept as a table of closed ranges of code points.
-/

namespace StackLowering.Text

/-- Whether a character lies in one of the ranges. -/
def inRanges (ranges : Array (UInt32 × UInt32)) (c : Char) : Bool :=
  ranges.any fun (first, last) => first ≤ c.val && c.val ≤ last

end StackLowering.Text
