import PhpScript.Number.Reader

/-!
# Numeric literals

Decoding the text of an integer or float literal. Underscores among the digits
carry no meaning. An integer that a signed 64-bit word cannot hold becomes a
floating-point number, as the source language has it.
-/

namespace PhpScript

/-- The value of an integer literal. -/
inductive Numeral
  | integer (value : Nat)
  | float (value : Double)
deriving DecidableEq, Repr

namespace Literal

/-- The largest integer of a signed 64-bit word. -/
def maxInteger : Nat := twoTo 63 - 1

/-- The bound below which a value is rounded once, from its exact value. -/
def exactBound : Nat := twoTo 128

/-- The radix of an integer literal and the digits after what announces it. A
    zero before further digits announces octal. -/
def radixAndDigits : List Char → Nat × List Char
  | '0' :: 'x' :: ds | '0' :: 'X' :: ds => (16, ds)
  | '0' :: 'b' :: ds | '0' :: 'B' :: ds => (2, ds)
  | '0' :: 'o' :: ds | '0' :: 'O' :: ds => (8, ds)
  | '0' :: d :: ds => (8, d :: ds)
  | ds => (10, ds)

/-- The characters of a literal that count. -/
def withoutUnderscores (text : String) : List Char := text.toList.filter (· != '_')

/-- The value of an integer literal; none for a malformed one such as `09`.
    Beyond `exactBound` the digits are appended one by one in floating point. -/
def integer? (text : String) : Option Numeral :=
  let (radix, digits) := radixAndDigits (withoutUnderscores text)
  if digits.isEmpty || !digits.all (isDigitOf radix) then none
  else
    let value := positionalValue radix digits
    if value ≤ maxInteger then some (.integer value)
    else if value < exactBound then some (.float (.ofNat value))
    else
      let append x c := Double.appendDigit radix x ((digitValue? c).getD 0)
      some (.float (digits.foldl append (.zero false)))

/-- The value of a float literal. A point at the end is allowed once. -/
def float? (text : String) : Option Double :=
  let digits := withoutUnderscores text
  Double.ofText? (if digits.getLast? == some '.' then digits.dropLast else digits)

end Literal

end PhpScript
