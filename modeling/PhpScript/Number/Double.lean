import PhpScript.Number.Power

/-!
# Binary64 numbers

A floating-point number is held as its 64 bits and handled in exact arithmetic
on natural numbers. The magnitude of every finite number is a whole multiple
of the unit `2^-1074`, the smallest positive one:

* `Double.units` is that multiple;
* `Double.ofUnits` is the number nearest to a quotient of units, a half going
  to the even neighbour, so every way of making a number rounds alike.
-/

namespace PhpScript

/-- A floating-point number of 64 bits: a sign, eleven bits of exponent and
    fifty-two of fraction. -/
structure Double where
  bits : UInt64
deriving DecidableEq, Repr, Inhabited

namespace Double

/-- The power of two by which one differs from the unit. -/
def unitScale : Nat := 1074

/-- The bits of positive infinity; those of any finite magnitude are below. -/
def infinityBits : Nat := 2047 * twoTo 52

/-- Whether the sign bit is set. -/
def isNegative (x : Double) : Bool := twoTo 63 ≤ x.bits.toNat

/-- The bits without the sign. -/
def magnitude (x : Double) : Nat := x.bits.toNat % twoTo 63

/-- Whether this is not a number. -/
def isNaN (x : Double) : Bool := infinityBits < x.magnitude

/-- Whether this is an infinity. -/
def isInfinite (x : Double) : Bool := x.magnitude == infinityBits

/-- Whether this is neither an infinity nor not a number. -/
def isFinite (x : Double) : Bool := x.magnitude < infinityBits

/-- The power of two, counted from the unit, that the last bit of the
    significand weighs. -/
def scale (x : Double) : Nat := x.magnitude / twoTo 52 - 1

/-- The significand: the fraction with the leading one that all but the
    smallest numbers have. -/
def significand (x : Double) : Nat := x.magnitude - x.scale * twoTo 52

/-- The magnitude of a finite number, in units. -/
def units (x : Double) : Nat := x.significand * twoTo x.scale

/-- The number with the given sign and the bits of the given magnitude. -/
def ofMagnitude (negative : Bool) (magnitude : Nat) : Double :=
  ⟨UInt64.ofNat (if negative then twoTo 63 + magnitude else magnitude)⟩

/-- Zero. -/
def zero (negative : Bool) : Double := ofMagnitude negative 0

/-- Infinity. -/
def infinity (negative : Bool) : Double := ofMagnitude negative infinityBits

/-- The value that is not a number, with the first bit of its fraction set. -/
def nan (negative : Bool) : Double := ofMagnitude negative (infinityBits + twoTo 51)

/-- The quotient rounded to the nearest whole number, a half to the even one. -/
def roundQuotient (num den : Nat) : Nat :=
  let q := num / den
  let r := num % den
  if 2 * r < den then q
  else if 2 * r = den then q + q % 2
  else q + 1

/-- The number nearest to `num / den` units. The last bit kept weighs `2^s`
    units, where `s` leaves fifty-three bits; rounding up to a power of two
    carries into the exponent by itself. -/
def ofUnits (negative : Bool) (num den : Nat) : Double :=
  let s := (num / den).log2 - 52
  let magnitude := s * twoTo 52 + roundQuotient num (den * twoTo s)
  ofMagnitude negative (min magnitude infinityBits)

/-- The number nearest to a whole number. -/
def ofNat (n : Nat) : Double := ofUnits false (n * twoTo unitScale) 1

/-- The number nearest to a whole number of either sign. -/
def ofInt (n : Int) : Double := ofUnits (n < 0) (n.natAbs * twoTo unitScale) 1

/-- Whether this is a zero of either sign. -/
def isZero (x : Double) : Bool := x.magnitude == 0

/-- The number with the other sign. -/
def neg (x : Double) : Double := ofMagnitude (!x.isNegative) x.magnitude

/-- The product of two finite numbers. -/
def mul (x y : Double) : Double :=
  ofUnits (x.isNegative != y.isNegative) (x.units * y.units) (twoTo unitScale)

/-- The quotient of two finite numbers, of which the second is not zero. -/
def div (x y : Double) : Double :=
  ofUnits (x.isNegative != y.isNegative) (x.units * twoTo unitScale) y.units

/-- The number of decimal digits of `n`. -/
def decimalLength (n : Nat) : Nat := (Nat.toDigits 10 n).length

/-- The number nearest to `digits * 10^exponent`. What lies far outside the
    range of the finite numbers is decided without raising ten to the power. -/
def ofDecimal (negative : Bool) (digits : Nat) (exponent : Int) : Double :=
  let reach := decimalLength digits + exponent
  if digits = 0 ∨ reach < -400 then zero negative
  else if 400 < reach then infinity negative
  else if 0 ≤ exponent then ofUnits negative (digits * tenTo exponent.toNat * twoTo unitScale) 1
  else ofUnits negative (digits * twoTo unitScale) (tenTo (-exponent).toNat)

/-- Appends a digit to a number that is not negative: multiplies by the radix
    and adds the digit, rounding after each. -/
def appendDigit (radix : Nat) (x : Double) (digit : Nat) : Double :=
  if x.isFinite then
    let product := ofUnits false (x.units * radix) 1
    if product.isFinite then ofUnits false (product.units + digit * twoTo unitScale) 1 else product
  else x

end Double

end PhpScript
