import StackLowering.Code.Basic
import StackLowering.Text.Blank

/-!
# Assembly text

A label stands at the start of its line, after an empty line, and an instruction is indented. An
instruction without an operand is written with the word `nil` in its place, apart from the two that
stand alone.

## Main definitions

* `Listing.render`: the text of a listing
* `Entry.describe`: an entry as a diagnostic names it
-/

namespace StackLowering

/-- An operand as it is written in assembly text. -/
def Operand.text : Operand → String
  | .integer n => toString n.toInt
  | .count n => toString n.toNat
  | .string s => "\"" ++ s ++ "\""
  | .symbol s => "sym(" ++ s ++ ")"
  | .label s => s

namespace Instruction

/-- The operand, or the word that stands for its absence. -/
def operandText (i : Instruction) : String :=
  match i.operand with
  | some o => o.text
  | none => "nil"

/-- The indentation of an instruction. -/
def indent : String := "    "

/-- The line of an instruction. -/
def line (i : Instruction) : String :=
  if i.operand.isNone && i.mnemonic.standsAlone then indent ++ i.mnemonic.text
  else indent ++ i.mnemonic.text ++ " " ++ i.operandText

end Instruction

namespace Entry

/-- The text of an entry; a label brings an empty line with it. -/
def text : Entry → String
  | .label name => "\n" ++ name ++ ":"
  | .instruction i => i.line

/-- An entry as a diagnostic names it. -/
def describe : Entry → String
  | .label name => "label '" ++ name ++ "'"
  | .instruction ⟨m, some o⟩ => "'" ++ m.text ++ " " ++ o.text ++ "'"
  | .instruction ⟨m, none⟩ => "'" ++ m.text ++ "'"

end Entry

/-- The text of a listing: its entries on lines of their own, and nothing blank before the
first. -/
def Listing.render (l : Listing) : String :=
  Text.trimStart ("\n".intercalate (l.entries.map Entry.text))

end StackLowering
