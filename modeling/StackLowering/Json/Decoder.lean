import StackLowering.Json.ReadError

/-!
# Reading values from fragments

A decoder takes a fragment to the value that it describes, or to the first fault of it.

## Main definitions

* `Decoder`: how a type is read
* `Decoder.string`, `Decoder.int64`, `Decoder.word32`, `Decoder.word64`: scalars
* `Decoder.option`, `Decoder.list`: a value that may be absent, and a list
-/

namespace StackLowering.Json

/-- How values of a type are read. -/
abbrev Decoder (α : Type) := Fragment → Except ReadError α

namespace Decoder

/-- Refuses everything, for want of brackets that may be opened. -/
def tooDeep {α : Type} (expected : String) : Decoder α := fun f => .error (f.tooDeep expected)

def string : Decoder String
  | .string (some s) => .ok s
  | f => .error (f.mismatch "a string")

/-- An integer between two bounds, the bounds included. -/
def integer (low high : Int) (expected : String) : Decoder Int
  | .number (some (.integer n)) =>
    if low ≤ n ∧ n ≤ high then .ok n else .error (.invalidValue (.integer n) expected)
  | f => .error (f.mismatch expected)

/-- A signed integer of 64 bits. -/
def int64 : Decoder Int64 := fun f =>
  (integer Int64.minValue.toInt Int64.maxValue.toInt "i64" f).map Int64.ofInt

/-- An unsigned integer of 32 bits. -/
def word32 : Decoder UInt32 := fun f =>
  (integer 0 (UInt32.size - 1) "u32" f).map fun n => UInt32.ofNat n.toNat

/-- An unsigned integer of 64 bits. -/
def word64 : Decoder UInt64 := fun f =>
  (integer 0 (UInt64.size - 1) "usize" f).map fun n => UInt64.ofNat n.toNat

/-- A value, or `null` for its absence. -/
def option {α : Type} (some : Decoder α) : Decoder (Option α)
  | .null => .ok none
  | f => (some f).map .some

/-- What is expected where a list is read. -/
def listTitle : String := "a sequence"

/-- The items of an array, in order. -/
def list {α : Type} (item : Decoder α) : Decoder (List α)
  | .array items closed => do
    let values ← items.mapM item
    if closed then return values else throw .malformed
  | f => .error (f.mismatch listTitle)

/-- A list of strings, with so many brackets that may be opened. -/
def strings : Nat → Decoder (List String)
  | 0 => tooDeep listTitle
  | _ + 1 => list string

end Decoder

end StackLowering.Json
