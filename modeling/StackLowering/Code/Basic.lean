/-!
# Stack code

The code that a program is lowered to: a flat list of entries, each a label or an instruction with
at most one operand. Nothing here ties an instruction to the kind of operand that it usually
carries; what the lowering emits is a property of the lowering.

## Main definitions

* `Mnemonic`, `Operand`, `Instruction`, `Entry`: the parts of a listing
* `Code`: the code of a piece of a tree, with the blocks that it lifts out
* `Listing`: a whole program
-/

namespace StackLowering

/-- The operation of an instruction. -/
inductive Mnemonic
  | push | pushInteger | pushString | pushSymbol | list | record | close | pop | drop | call | ret
  | jump | jumpIfFalse | halt | get | add | idiv | mod | mul | neg | sub | eq | neq | lt | lte | gt
  | gte | concat | field
deriving DecidableEq

namespace Mnemonic

/-- Every mnemonic, in the order of the declaration. -/
def all : List Mnemonic :=
  [push, pushInteger, pushString, pushSymbol, list, record, close, pop, drop, call, ret, jump,
    jumpIfFalse, halt, get, add, idiv, mod, mul, neg, sub, eq, neq, lt, lte, gt, gte, concat, field]

/-- The mnemonic as it is written in assembly text. -/
def text : Mnemonic → String
  | push => "push"
  | pushInteger => "push_integer"
  | pushString => "push_string"
  | pushSymbol => "push_symbol"
  | list => "list"
  | record => "structure"
  | close => "close"
  | pop => "pop"
  | drop => "drop"
  | call => "call"
  | ret => "return"
  | jump => "jump"
  | jumpIfFalse => "jump_if_false"
  | halt => "end"
  | get => "get"
  | add => "add"
  | idiv => "idiv"
  | mod => "mod"
  | mul => "mul"
  | neg => "neg"
  | sub => "sub"
  | eq => "eq"
  | neq => "neq"
  | lt => "lt"
  | lte => "lte"
  | gt => "gt"
  | gte => "gte"
  | concat => "concat"
  | field => "field"

/-- The mnemonic that is written so. -/
def ofText? (s : String) : Option Mnemonic := all.find? (·.text == s)

theorem mem_all (m : Mnemonic) : m ∈ all := by cases m <;> decide

theorem ofText?_text (m : Mnemonic) : ofText? m.text = some m := by cases m <;> decide

/-- No two operations are written alike. -/
theorem text_injective {m n : Mnemonic} (h : m.text = n.text) : m = n := by
  simpa [ofText?_text] using congrArg ofText? h

/-- Whether an instruction without an operand is written as the bare word. -/
def standsAlone : Mnemonic → Bool
  | drop | ret => true
  | _ => false

end Mnemonic

/-- The operand of an instruction. -/
inductive Operand
  | integer (value : Int64)
  | count (value : UInt64)
  | string (value : String)
  | symbol (name : String)
  | label (name : String)
deriving DecidableEq

/-- An operation and its operand, if it has one. -/
structure Instruction where
  mnemonic : Mnemonic
  operand : Option Operand
deriving DecidableEq

namespace Instruction

/-- The instruction that discards the top of the stack. -/
def drop : Instruction := ⟨.drop, none⟩

/-- Whether this is the instruction that discards the top of the stack. -/
def isDrop (i : Instruction) : Bool := i == drop

@[simp] theorem isDrop_iff {i : Instruction} : i.isDrop = true ↔ i = drop := beq_iff_eq

end Instruction

/-- An entry of a listing. -/
inductive Entry
  | label (name : String)
  | instruction (i : Instruction)
deriving DecidableEq

namespace Entry

/-- The instruction with this operation and operand. -/
def op (m : Mnemonic) (operand : Option Operand) : Entry := .instruction ⟨m, operand⟩

/-- The entry that discards the top of the stack. -/
def drop : Entry := .instruction .drop

/-- Whether this is the entry that discards the top of the stack. -/
def isDrop : Entry → Bool
  | .instruction i => i.isDrop
  | .label _ => false

@[simp] theorem isDrop_iff {e : Entry} : e.isDrop = true ↔ e = drop := by
  cases e <;> simp [isDrop, drop]

/-- The name that an entry defines. -/
def label? : Entry → Option String
  | .label name => some name
  | .instruction _ => none

end Entry

/-! ## Pieces of code -/

/-- The code of a piece of a tree: the blocks of the functions inside it, lifted out, and the
entries that stand in its own place. -/
structure Code where
  lifted : List Entry
  own : List Entry
deriving DecidableEq

namespace Code

/-- No code. -/
def empty : Code := ⟨[], []⟩

/-- One instruction. -/
def single (m : Mnemonic) (operand : Option Operand) : Code := ⟨[], [.op m operand]⟩

/-- One piece after the other. -/
protected def append (a b : Code) : Code := ⟨a.lifted ++ b.lifted, a.own ++ b.own⟩

instance : Append Code := ⟨Code.append⟩

/-- The piece with one more instruction at the end of its own code. -/
def push (c : Code) (m : Mnemonic) (operand : Option Operand) : Code :=
  ⟨c.lifted, c.own ++ [.op m operand]⟩

@[simp] theorem lifted_empty : empty.lifted = [] := rfl
@[simp] theorem own_empty : empty.own = [] := rfl
@[simp] theorem lifted_single (m : Mnemonic) (o : Option Operand) : (single m o).lifted = [] := rfl
@[simp] theorem own_single (m : Mnemonic) (o : Option Operand) : (single m o).own = [.op m o] := rfl
@[simp] theorem lifted_append (a b : Code) : (a ++ b).lifted = a.lifted ++ b.lifted := rfl
@[simp] theorem own_append (a b : Code) : (a ++ b).own = a.own ++ b.own := rfl
@[simp] theorem lifted_push (c : Code) (m : Mnemonic) (o : Option Operand) :
    (c.push m o).lifted = c.lifted := rfl
@[simp] theorem own_push (c : Code) (m : Mnemonic) (o : Option Operand) :
    (c.push m o).own = c.own ++ [.op m o] := rfl

end Code

/-! ## Listings -/

/-- The code of a whole program. -/
structure Listing where
  entries : List Entry
deriving DecidableEq

namespace Listing

/-- The names that the listing defines, in order. -/
def labels (l : Listing) : List String := l.entries.filterMap Entry.label?

/-- The number of entries. -/
def length (l : Listing) : Nat := l.entries.length

def isEmpty (l : Listing) : Bool := l.entries.isEmpty

end Listing

end StackLowering
