import PhpScript.Number.Double

/-!
# Reading decimals

The text forms of a floating-point number: an optional sign, then either one of
the words `inf`, `infinity` and `nan` in any letter case, or decimal digits with
an optional point and an optional exponent. At least one digit is needed, but
not on both sides of the point.
-/

namespace PhpScript

/-- The value of a digit, also of the letter digits of larger radices. -/
def digitValue? (c : Char) : Option Nat :=
  if '0' ≤ c ∧ c ≤ '9' then some (c.toNat - '0'.toNat)
  else if 'a' ≤ c ∧ c ≤ 'z' then some (c.toNat - 'a'.toNat + 10)
  else if 'A' ≤ c ∧ c ≤ 'Z' then some (c.toNat - 'A'.toNat + 10)
  else none

/-- Whether a character is a digit of the radix. -/
def isDigitOf (radix : Nat) (c : Char) : Bool :=
  match digitValue? c with
  | some d => d < radix
  | none => false

/-- The whole number that digits of the radix spell. -/
def positionalValue (radix : Nat) (digits : List Char) : Nat :=
  digits.foldl (fun n c => n * radix + (digitValue? c).getD 0) 0

namespace Double

/-- Splits a leading sign off. -/
def splitSign : List Char → Bool × List Char
  | '-' :: cs => (true, cs)
  | '+' :: cs => (false, cs)
  | cs => (false, cs)

/-- The exponent that the text after the digits gives: none without a text. -/
def readExponent? : List Char → Option Int
  | [] => some 0
  | c :: cs =>
    let (negative, digits) := splitSign cs
    if c.toLower == 'e' && !digits.isEmpty && digits.all Char.isDigit then
      let n : Int := positionalValue 10 digits
      some (if negative then -n else n)
    else none

/-- Digits with a point and an exponent. -/
def readDigits? (negative : Bool) (cs : List Char) : Option Double :=
  let whole := cs.takeWhile Char.isDigit
  let afterWhole := cs.dropWhile Char.isDigit
  let (fraction, rest) := match afterWhole with
    | '.' :: ds => (ds.takeWhile Char.isDigit, ds.dropWhile Char.isDigit)
    | ds => ([], ds)
  if whole.isEmpty && fraction.isEmpty then none
  else
    (readExponent? rest).map fun e =>
      ofDecimal negative (positionalValue 10 (whole ++ fraction)) (e - fraction.length)

/-- The number nearest to the one that a text spells. -/
def ofText? (cs : List Char) : Option Double :=
  let (negative, body) := splitSign cs
  let word := String.ofList (body.map Char.toLower)
  if word == "inf" || word == "infinity" then some (infinity negative)
  else if word == "nan" then some (nan negative)
  else readDigits? negative body

end Double

end PhpScript
