import StackLowering.CompileError
import StackLowering.Lowering.Journal
import StackLowering.Tree.Reader

/-!
# Compiling a program

The whole way from a text to assembly text.

## Main definitions

* `lowerText`: the listing of the program that a text describes
* `Program.compile`: the assembly text of a program
-/

namespace StackLowering

/-- The listing of the program that a text describes. -/
def lowerText (text : String) : Except CompileError Listing := do
  let program ← (Program.ofText text).mapError fun e => .input (.unreadable e)
  program.lower.mapError .lowering

/-- The assembly text of a program. -/
def Program.compile (p : Program) : Except LocatedFault String :=
  p.lower.map Listing.render

end StackLowering
