import PhpScript.Number.Shortest

/-!
# Writing numbers

A floating-point number is written with its shortest digits, either in
positional notation or with an exponent. `NumberNotation` records what a format
decides; the digits themselves are the same in all of them, ties apart.
-/

namespace PhpScript

/-- The decisions of a number format. -/
structure NumberNotation where
  /-- Which of two equally near decimals is written. -/
  tie : Tie
  /-- Whether a number with this exponent of its first digit is written positionally. -/
  positional : Int → Bool
  /-- What follows the digits of a whole number in positional notation. -/
  whole : String

namespace NumberNotation

/-- `n` zeros. -/
def zeros (n : Nat) : String := String.ofList (List.replicate n '0')

/-- The digits with the point after the first `point` of them, padded by zeros. -/
def writePositional (f : NumberNotation) (digits : List Char) (point : Int) : String :=
  if point ≤ 0 then
    "0." ++ zeros (-point).toNat ++ String.ofList digits
  else if digits.length ≤ point then
    String.ofList digits ++ zeros (point.toNat - digits.length) ++ f.whole
  else
    String.ofList (digits.take point.toNat) ++ "." ++ String.ofList (digits.drop point.toNat)

/-- One digit, the others after a point, and a signed exponent. -/
def writeExponent (digits : List Char) (exponent : Int) : String :=
  let mantissa := match digits with
    | [] => ""
    | [d] => String.ofList [d]
    | d :: ds => String.ofList (d :: '.' :: ds)
  let sign := if exponent < 0 then "-" else "+"
  mantissa ++ "e" ++ sign ++ String.ofList (Nat.toDigits 10 exponent.natAbs)

/-- A finite number in this format. -/
def write (f : NumberNotation) (x : Double) : String :=
  let sign := if x.isNegative then "-" else ""
  if x.units = 0 then sign ++ "0" ++ f.whole
  else
    let d := x.shortest f.tie
    let digits := Nat.toDigits 10 d.digits
    let point : Int := digits.length + d.exponent
    if f.positional (point - 1) then sign ++ f.writePositional digits point
    else sign ++ writeExponent digits (point - 1)

end NumberNotation

end PhpScript
