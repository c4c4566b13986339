/-!
# Source locations

A statement of a tree may carry the place in a source file that it came from. Locations take no
part in the code that is produced; they are only named in diagnostics.
-/

namespace StackLowering

/-- A line and a column of a file. -/
structure Location where
  filename : String
  line : UInt32
  column : UInt32
deriving DecidableEq

namespace Location

/-- The file, the line and the column, with colons between them. -/
def text (l : Location) : String :=
  l.filename ++ ":" ++ toString l.line.toNat ++ ":" ++ toString l.column.toNat

/-- The part of a diagnostic that says where: nothing when the place is unknown. -/
def clause : Option Location → String
  | some l => " at " ++ l.text
  | none => ""

end Location

end StackLowering
