import StackLowering.Text.Range

/-!
# Blank characters

The characters with the property `White_Space` of Unicode.
-/

namespace StackLowering.Text

/-- The code points with this property, in increasing order. -/
def blankRanges : Array (UInt32 × UInt32) := #[
    (0x9, 0xd), (0x20, 0x20), (0x85, 0x85), (0xa0, 0xa0), (0x1680, 0x1680), (0x2000, 0x200a),
    (0x2028, 0x2029), (0x202f, 0x202f), (0x205f, 0x205f), (0x3000, 0x3000)]

/-- Whether a character is blank. -/
def isBlank (c : Char) : Bool := inRanges blankRanges c

/-- A string without the blank characters at its start. -/
def trimStart (s : String) : String := String.ofList (s.toList.dropWhile isBlank)

end StackLowering.Text
