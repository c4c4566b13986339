import StackLowering.Binary64.Basic

/-!
# The shortest decimal of a double precision number

Of the decimals that read back as a given magnitude, the one with the fewest digits is chosen; of
two of them with equally many digits the nearer one, and on a tie the one with the even last digit.

A magnitude is what every fraction between the points halfway to its two neighbours reads back as,
the halfway points included exactly when the significand is even. The search goes through the
decimal grids from coarse to fine, and on each it looks at the two points next to the magnitude.

## Main definitions

* `ReadsBack`: whether a fraction reads back as a magnitude
* `shortest`: the decimal that is chosen
* `Binary64.text`: a number as a diagnostic shows it
-/

namespace StackLowering

namespace Binary64

-- a power of a natural number is that of the core library, whatever other instances are in scope
attribute [local instance (high)] instPowNat

/-- A decimal: `digits * 10 ^ exponent`. -/
structure Decimal where
  digits : Nat
  exponent : Int
deriving DecidableEq

/-- Numerator and denominator of a decimal. -/
def Decimal.ratio (d : Decimal) : Nat × Nat :=
  (d.digits * 10 ^ d.exponent.toNat, 10 ^ (-d.exponent).toNat)

/-- Whether a magnitude is nearer to the one below it than to the one above it. -/
def Magnitude.isNarrowBelow (x : Magnitude) : Bool :=
  x.significand == 2 ^ (precision - 1) && x.scale != 0

/-- The points halfway to the two neighbours of a magnitude, in quarters of a unit. -/
def Magnitude.halfway (x : Magnitude) : Nat × Nat :=
  let quarter := 2 ^ x.scale
  (x.units * 4 - (if x.isNarrowBelow then quarter else 2 * quarter), x.units * 4 + 2 * quarter)

/-- Whether a decimal reads back as a magnitude. -/
def Magnitude.readsBack (x : Magnitude) (d : Decimal) : Bool :=
  let (num, den) := d.ratio
  let (low, high) := x.halfway
  let value := num * 2 ^ unitExponent * 4
  if x.significand % 2 = 0 then low * den ≤ value && value ≤ high * den
  else low * den < value && value < high * den

/-- The greatest exponent of a power of ten that is at most `num / den`, which is positive. -/
def floorLog10 (num den : Nat) : Int :=
  let guess : Int := (Nat.toDigits 10 num).length - (Nat.toDigits 10 den).length
  if den * 10 ^ guess.toNat ≤ num * 10 ^ (-guess).toNat then guess else guess - 1

/-- The point of the grid with steps of `10 ^ exponent` that reads back as a magnitude, if one of
the two points next to the magnitude does: the nearer one, or on a tie the even one. -/
def Magnitude.onGrid (x : Magnitude) (exponent : Int) : Option Decimal :=
  let num := x.units * 10 ^ (-exponent).toNat
  let den := 2 ^ unitExponent * 10 ^ exponent.toNat
  let below : Decimal := ⟨num / den, exponent⟩
  let above : Decimal := ⟨num / den + 1, exponent⟩
  let nearest : Decimal := ⟨roundDiv num den, exponent⟩
  match x.readsBack below, x.readsBack above with
  | true, true => some nearest
  | true, false => some below
  | false, true => some above
  | false, false => none

/-- A decimal without zeros at the end of its digits; `fuel` bounds their number. -/
def Decimal.stripZeros : Nat → Decimal → Decimal
  | 0, d => d
  | fuel + 1, d =>
    if d.digits != 0 && d.digits % 10 = 0 then
      stripZeros fuel ⟨d.digits / 10, d.exponent + 1⟩
    else d

/-- The most digits that a shortest decimal needs. -/
def maxDigits : Nat := 17

/-- The shortest decimal of a positive magnitude. -/
def Magnitude.shortest (x : Magnitude) : Decimal :=
  let leading := floorLog10 x.units (2 ^ unitExponent)
  let grids := (List.range maxDigits).map fun (n : Nat) => leading - (n : Int)
  let found := (grids.findSome? x.onGrid).getD ⟨x.units * 5 ^ unitExponent, -unitExponent⟩
  found.stripZeros (maxDigits + 1)

/-! ## Text -/

/-- The least and the greatest exponent of a leading digit at which a number is written without an
exponent. -/
def positionalExponents : Int × Int := (-5, 15)

/-- A decimal as text: digits around a point, at least one on each side, or one digit before the
point and an exponent with its sign. -/
def Decimal.text (d : Decimal) : String :=
  let digits := Nat.toDigits 10 d.digits
  let count : Int := digits.length
  let leading : Int := d.exponent + count - 1
  if positionalExponents.1 ≤ leading ∧ leading ≤ positionalExponents.2 then
    if 0 ≤ d.exponent then
      String.ofList (digits ++ List.replicate d.exponent.toNat '0' ++ ['.', '0'])
    else if 0 ≤ leading then
      let whole := (leading + 1).toNat
      String.ofList (digits.take whole ++ ['.'] ++ digits.drop whole)
    else
      String.ofList (['0', '.'] ++ List.replicate (-leading - 1).toNat '0' ++ digits)
  else
    let fraction := digits.drop 1
    String.ofList (digits.take 1 ++ (if fraction.isEmpty then [] else '.' :: fraction)) ++
      (if leading < 0 then "e-" else "e+") ++ toString leading.natAbs

end Binary64

/-- A number as a diagnostic shows it. -/
def Binary64.text (x : Binary64) : String :=
  (if x.negative then "-" else "") ++
    (if x.magnitude.significand = 0 then "0.0" else x.magnitude.shortest.text)

end StackLowering
