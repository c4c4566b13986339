/-!
# Double precision numbers

The magnitudes of the finite numbers of the format binary64, and their arithmetic in exact natural
numbers: an operation takes the exact result, as a fraction, to the nearest number of the format,
and a tie to the one with the even significand.

Every magnitude is a multiple of `2 ^ -1074`, the least positive one. A magnitude is kept as a
significand and the power of two by which that unit is scaled.

## Main definitions

* `Magnitude`: a finite magnitude
* `Magnitude.ofRatio`: the magnitude nearest to a fraction, if there is one in range
* `Magnitude.mul`, `Magnitude.div`: arithmetic
* `Binary64`: a finite number, a sign and a magnitude
-/

namespace StackLowering

namespace Binary64

-- a power of a natural number is that of the core library, whatever other instances are in scope
attribute [local instance (high)] instPowNat

/-- The digits of a significand, in base two. -/
def precision : Nat := 53

/-- The exponent of the unit: every magnitude is a multiple of `2 ^ -unitExponent`. -/
def unitExponent : Nat := 1074

/-- The greatest power by which the unit is scaled. -/
def maxScale : Nat := 2045

/-- The finite magnitude `significand * 2 ^ scale * 2 ^ -1074`. -/
structure Magnitude where
  significand : Nat
  scale : Nat
deriving DecidableEq

/-- The natural number nearest to `num / den`; a tie goes to the even one. -/
def roundDiv (num den : Nat) : Nat :=
  let q := num / den
  let twice := 2 * (num % den)
  if twice < den then q
  else if den < twice then q + 1
  else if q % 2 = 0 then q else q + 1

namespace Magnitude

def zero : Magnitude := ⟨0, 0⟩

/-- The number of units in a magnitude. -/
def units (x : Magnitude) : Nat := x.significand * 2 ^ x.scale

/-- The magnitude nearest to `num / den` units, or nothing when that is out of range. -/
def ofUnits (num den : Nat) : Option Magnitude :=
  let scale := (Nat.log2 (num / den) + 1) - precision
  let significand := roundDiv num (den * 2 ^ scale)
  let (significand, scale) :=
    if significand = 2 ^ precision then (2 ^ (precision - 1), scale + 1) else (significand, scale)
  if scale ≤ maxScale then some ⟨significand, scale⟩ else none

/-- The magnitude nearest to `num / den`, or nothing when that is out of range. -/
def ofRatio (num den : Nat) : Option Magnitude := ofUnits (num * 2 ^ unitExponent) den

/-- The product, rounded. -/
def mul (x y : Magnitude) : Option Magnitude := ofUnits (x.units * y.units) (2 ^ unitExponent)

/-- The quotient, rounded. -/
def div (x y : Magnitude) : Option Magnitude := ofUnits (x.units * 2 ^ unitExponent) y.units

end Magnitude

end Binary64

/-- A finite number of the format binary64. -/
structure Binary64 where
  negative : Bool
  magnitude : Binary64.Magnitude
deriving DecidableEq

end StackLowering
