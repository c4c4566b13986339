import StackLowering.Binary64.Basic

/-!
# Numbers in a text

A number without a point and an exponent is an integer as far as 64 bits hold it. Every other
number is taken in double precision; so is a zero with a minus sign.

The double that stands for a decimal is not always the nearest one. As many leading digits as fit
into 64 bits are taken to the nearest double, and that is multiplied or divided by a power of ten,
which is a double too. A number whose double would be out of range has no value.

## Main definitions

* `NumberLiteral`: the parts of a number as it is written
* `NumberLiteral.read`: takes a number off the front of a text
* `NumberLiteral.value`: the number that is meant
-/

namespace StackLowering.Json

open Binary64

/-- A number that a text can give. -/
inductive Number
  | integer (value : Int)
  | float (value : Binary64)
deriving DecidableEq

/-- The parts of a number as it is written; no digits of a fraction and no exponent are told from
empty ones. -/
structure NumberLiteral where
  negative : Bool
  whole : List Nat
  fraction : Option (List Nat)
  exponent : Option Int
deriving DecidableEq

namespace NumberLiteral

/-! ## Reading -/

/-- The digits at the front of a text, and the rest. -/
def readDigits (cs : List Char) : List Nat × List Char :=
  ((cs.takeWhile Char.isDigit).map fun c => c.toNat - '0'.toNat, cs.dropWhile Char.isDigit)

/-- The number with these decimal digits. -/
def ofDigits (digits : List Nat) : Nat := digits.foldl (fun n d => 10 * n + d) 0

/-- A sign at the front of a text, if there is one: whether it is a minus. -/
def readSign : List Char → Bool × List Char
  | '-' :: r => (true, r)
  | '+' :: r => (false, r)
  | r => (false, r)

/-- The digits before the point: a zero alone, or digits that do not start with one. -/
def readWhole (cs : List Char) : Option (List Nat × List Char) :=
  match readDigits cs with
  | ([], _) => none
  | (0 :: _ :: _, _) => none
  | (digits, r) => some (digits, r)

/-- The digits behind the point, if there is a point. -/
def readFraction : List Char → Option (Option (List Nat) × List Char)
  | '.' :: r =>
    match readDigits r with
    | ([], _) => none
    | (digits, r) => some (some digits, r)
  | r => some (none, r)

/-- The exponent behind its letter. -/
def readPower (cs : List Char) : Option (Option Int × List Char) :=
  let (negative, r) := readSign cs
  match readDigits r with
  | ([], _) => none
  | (digits, r) =>
    let e : Int := ofDigits digits
    some (some (if negative then -e else e), r)

/-- The exponent, if there is one. -/
def readExponent : List Char → Option (Option Int × List Char)
  | 'e' :: r => readPower r
  | 'E' :: r => readPower r
  | r => some (none, r)

/-- The number without its sign. -/
def readUnsigned (negative : Bool) (cs : List Char) : Option (NumberLiteral × List Char) := do
  let (whole, r) ← readWhole cs
  let (fraction, r) ← readFraction r
  let (exponent, r) ← readExponent r
  return (⟨negative, whole, fraction, exponent⟩, r)

/-- Takes a number off the front of a text. -/
def read : List Char → Option (NumberLiteral × List Char)
  | '-' :: r => readUnsigned true r
  | r => readUnsigned false r

/-! ### What reading takes away -/

theorem length_readDigits_le (cs : List Char) : (readDigits cs).2.length ≤ cs.length :=
  List.dropWhile_sublist _ |>.length_le

/-- Digits that are read are characters that are taken away. -/
theorem length_readDigits_lt {cs : List Char} (h : (readDigits cs).1 ≠ []) :
    (readDigits cs).2.length < cs.length := by
  cases cs with
  | nil => simp [readDigits] at h
  | cons c r =>
    by_cases hc : c.isDigit
    · simpa [readDigits, hc, Nat.lt_succ_iff] using length_readDigits_le r
    · simp [readDigits, hc] at h

theorem length_readWhole_lt {cs r : List Char} {digits : List Nat}
    (h : readWhole cs = some (digits, r)) : r.length < cs.length := by
  have hd := @length_readDigits_lt cs
  unfold readWhole at h
  split at h <;> simp_all

theorem length_readFraction_le {cs r : List Char} {f : Option (List Nat)}
    (h : readFraction cs = some (f, r)) : r.length ≤ cs.length := by
  unfold readFraction at h
  split at h
  · rename_i r'
    have hd := length_readDigits_le r'
    split at h <;> simp_all
    omega
  · simp_all

theorem length_readPower_le {cs r : List Char} {e : Option Int}
    (h : readPower cs = some (e, r)) : r.length ≤ cs.length := by
  have hs : (readSign cs).2.length ≤ cs.length := by unfold readSign; split <;> simp
  have hd := length_readDigits_le (readSign cs).2
  unfold readPower at h
  split at h
  rename_i hr
  simp only [hr] at hs hd
  split at h <;> simp_all
  omega

theorem length_readExponent_le {cs r : List Char} {e : Option Int}
    (h : readExponent cs = some (e, r)) : r.length ≤ cs.length := by
  unfold readExponent at h
  split at h
  · have := length_readPower_le h; simp; omega
  · have := length_readPower_le h; simp; omega
  · simp_all

theorem length_readUnsigned_lt {cs r : List Char} {negative : Bool} {n : NumberLiteral}
    (h : readUnsigned negative cs = some (n, r)) : r.length < cs.length := by
  simp only [readUnsigned, Option.bind_eq_bind, Option.bind_eq_some_iff, Prod.exists,
    Option.pure_def, Option.some.injEq, Prod.mk.injEq] at h
  obtain ⟨w, r₁, hw, f, r₂, hf, e, r₃, he, -, rfl⟩ := h
  have := length_readWhole_lt hw
  have := length_readFraction_le hf
  have := length_readExponent_le he
  omega

/-- A number that is read is taken off the text. -/
theorem length_read_lt {cs r : List Char} {n : NumberLiteral} (h : read cs = some (n, r)) :
    r.length < cs.length := by
  unfold read at h
  split at h
  · have := length_readUnsigned_lt h; simp; omega
  · exact length_readUnsigned_lt h

/-! ## Values -/

-- a power of a natural number is that of the core library, whatever other instances are in scope
attribute [local instance (high)] instPowNat

/-- The number of values of a word of 64 bits. -/
def wordSize : Nat := UInt64.size

/-- Appends digits to a significand as long as it stays below the size of a word; also says how many
digits were left out. -/
def absorb (significand : Nat) : List Nat → Nat × Nat
  | [] => (significand, 0)
  | d :: rest =>
    if 10 * significand + d < wordSize then absorb (10 * significand + d) rest
    else (significand, rest.length + 1)

/-- The greatest power of ten in range. -/
def maxPower : Nat := 308

/-- A power of ten, as a double. -/
def tenPower (n : Nat) : Magnitude := (Magnitude.ofRatio (10 ^ n) 1).getD .zero

/-- A magnitude divided by a power of ten, in steps that are in range. -/
def scaleDown (x : Magnitude) (n : Nat) : Option Magnitude :=
  if n ≤ maxPower then x.div (tenPower n)
  else if x = .zero then some x
  else (x.div (tenPower maxPower)).bind (scaleDown · (n - maxPower))
termination_by n
decreasing_by simp [maxPower] at *; omega

/-- A magnitude times a power of ten. -/
def scale (x : Magnitude) (exponent : Int) : Option Magnitude :=
  if exponent < 0 then scaleDown x exponent.natAbs
  else if exponent.natAbs ≤ maxPower then x.mul (tenPower exponent.natAbs)
  else if x = .zero then some x
  else none

/-- The double that stands for a significand and a power of ten. -/
def toFloat (negative : Bool) (significand : Nat) (exponent : Int) : Option Number := do
  let x ← Magnitude.ofRatio significand 1
  return .float ⟨negative, ← scale x exponent⟩

/-- The number that is meant, or nothing when it is out of range. -/
def value (n : NumberLiteral) : Option Number :=
  let (whole, dropped) := absorb 0 n.whole
  match n.fraction, n.exponent, dropped with
  | none, none, 0 =>
    if !n.negative then some (.integer whole)
    else if 0 < whole ∧ whole ≤ wordSize / 2 then some (.integer (-whole))
    else toFloat true whole 0
  | fraction, exponent, _ =>
    let digits := fraction.getD []
    let (significand, rest) := absorb whole digits
    let places : Int := digits.length - rest
    toFloat n.negative significand (exponent.getD 0 + dropped - places)

end NumberLiteral

end StackLowering.Json
