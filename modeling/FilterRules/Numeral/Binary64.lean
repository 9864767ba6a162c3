/-!
# Binary floating-point numbers of 64 bits

A number is its bit pattern. The magnitude bits, read as a natural number, grow with the
magnitude, so the next magnitude up or down is the next bit pattern. Every finite magnitude is a
whole number of units of 2^-1074, the least positive magnitude. Arithmetic on magnitudes is exact
arithmetic on these units, followed by one rounding to the nearest magnitude, ties to even.
-/

namespace FilterRules

/-- A binary floating-point number, as its bit pattern. -/
structure Binary64 where
  /-- Sign in the top bit, then eleven bits of exponent and fifty-two of fraction. -/
  bits : UInt64
deriving DecidableEq, Inhabited

namespace Binary64

/-- The bit of the sign. -/
def signBit : Nat := 0x8000000000000000

/-- The lowest bit of the exponent, which lies above the fifty-two bits of the fraction. -/
def exponentBit : Nat := 0x10000000000000

/-- The number one, in units. -/
def unitsOfOne : Nat := Nat.pow 2 1074

/-- The bit pattern of the infinite magnitude; smaller patterns are finite, larger ones no number. -/
def infiniteBits : Nat := 2047 * exponentBit

/-- The bit pattern without its sign. -/
def magnitudeBits (x : Binary64) : Nat := x.bits.toNat % signBit

/-- Whether the sign is set; zero has both signs. -/
def isNegative (x : Binary64) : Bool := signBit ≤ x.bits.toNat

/-- Whether the pattern is a finite number. -/
def isFinite (x : Binary64) : Bool := x.magnitudeBits < infiniteBits

/-- Whether the pattern is no number. -/
def isNaN (x : Binary64) : Bool := infiniteBits < x.magnitudeBits

/-- A magnitude pattern with a sign. -/
def ofMagnitudeBits (negative : Bool) (magnitude : Nat) : Binary64 :=
  ⟨UInt64.ofNat (magnitude + if negative then signBit else 0)⟩

/-- The positive and the negative infinity. -/
def infinity (negative : Bool) : Binary64 := ofMagnitudeBits negative infiniteBits

/-- The pattern used for no number. -/
def nan : Binary64 := ofMagnitudeBits false (infiniteBits + exponentBit / 2)

/-- The zero with the given sign. -/
def zero (negative : Bool) : Binary64 := ofMagnitudeBits negative 0

/-- The value of a magnitude pattern, in units of 2^-1074. -/
def units (magnitude : Nat) : Nat :=
  if magnitude < exponentBit then magnitude
  else (exponentBit + magnitude % exponentBit) * Nat.pow 2 (magnitude / exponentBit - 1)

/-- The magnitude pattern nearest to `numerator / denominator`, the even one of two equally near.
With `k` the number of binary places that the value in units has beyond fifty-three, the pattern
is `k` steps of exponent plus the value rounded to a whole number of `2^k` units. -/
def nearest (numerator denominator : Nat) : Nat :=
  let scaled := numerator * unitsOfOne
  let k := (scaled / denominator).log2 - 52
  let step := denominator * Nat.pow 2 k
  let whole := scaled / step
  let rest := scaled % step
  let rounded := if step < 2 * rest ∨ (2 * rest = step ∧ whole % 2 = 1) then whole + 1 else whole
  min (k * exponentBit + rounded) infiniteBits

/-- The number nearest to a ratio, infinite when the ratio is out of range. -/
def ofRatio (negative : Bool) (numerator denominator : Nat) : Binary64 :=
  ofMagnitudeBits negative (nearest numerator denominator)

/-- The magnitude nearest to `digits * 10^exponent`. The two bounds on the exponent answer the
cases far out of range, where the power itself would be too long to write down. -/
def nearestDecimal (digits : Nat) (exponent : Int) : Nat :=
  if digits = 0 then 0
  else
    let leading : Int := (Nat.toDigits 10 digits).length + exponent
    if 400 < leading then infiniteBits
    else if leading < -400 then 0
    else nearest (digits * Nat.pow 10 exponent.toNat) (Nat.pow 10 (-exponent).toNat)

/-- The number nearest to a decimal, infinite when the decimal is out of range. -/
def ofDecimal (negative : Bool) (digits : Nat) (exponent : Int) : Binary64 :=
  ofMagnitudeBits negative (nearestDecimal digits exponent)

end Binary64

end FilterRules
