import StackLowering.Code.Basic
import StackLowering.Text.Quoted

/-!
# The structure of an entry, spelled out

A dump of a listing shows each entry with the names of its parts, so that an operand of one kind
cannot be taken for one of another.
-/

namespace StackLowering

/-- The name of an operation in a dump. -/
def Mnemonic.constructorName : Mnemonic → String
  | .push => "Push"
  | .pushInteger => "PushInteger"
  | .pushString => "PushString"
  | .pushSymbol => "PushSymbol"
  | .list => "List"
  | .record => "Structure"
  | .close => "Close"
  | .pop => "Pop"
  | .drop => "Drop"
  | .call => "Call"
  | .ret => "Return"
  | .jump => "Jump"
  | .jumpIfFalse => "JumpIfFalse"
  | .halt => "End"
  | .get => "Get"
  | .add => "Add"
  | .idiv => "Idiv"
  | .mod => "Mod"
  | .mul => "Mul"
  | .neg => "Neg"
  | .sub => "Sub"
  | .eq => "Eq"
  | .neq => "Neq"
  | .lt => "Lt"
  | .lte => "Lte"
  | .gt => "Gt"
  | .gte => "Gte"
  | .concat => "Concat"
  | .field => "Field"

/-- An operand with the name of its kind. -/
def Operand.inspect : Operand → String
  | .integer n => "Integer(" ++ toString n.toInt ++ ")"
  | .count n => "Count(" ++ toString n.toNat ++ ")"
  | .string s => "String(" ++ Text.quoted s ++ ")"
  | .symbol s => "Symbol(" ++ Text.quoted s ++ ")"
  | .label s => "Label(" ++ Text.quoted s ++ ")"

/-- An optional part of a dump. -/
def inspectOption {α : Type} (inspect : α → String) : Option α → String
  | some a => "Some(" ++ inspect a ++ ")"
  | none => "None"

/-- An instruction with the names of its parts. -/
def Instruction.inspect (i : Instruction) : String :=
  "Instruction \x7b mnemonic: " ++ i.mnemonic.constructorName ++ ", argument: " ++
    inspectOption Operand.inspect i.operand ++ " \x7d"

/-- An entry with the names of its parts. -/
def Entry.inspect : Entry → String
  | .label name => "Label(" ++ Text.quoted name ++ ")"
  | .instruction i => "Instruction(" ++ i.inspect ++ ")"

end StackLowering
