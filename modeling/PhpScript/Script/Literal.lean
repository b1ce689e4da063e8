import PhpScript.Number.Notation

/-!
# Literals of the script

How strings, numbers and names are spelled in the script that a program becomes.
-/

namespace PhpScript.Script

/-- The characters of a string between quotes: a quote is preceded by a
    backslash, and all else is copied as it is. -/
def escape : List Char → List Char
  | [] => []
  | c :: cs => if c == '\'' then '\\' :: c :: escape cs else c :: escape cs

/-- A string in single quotes. -/
def quote (value : String) : String :=
  String.ofList ('\'' :: escape value.toList ++ ['\''])

/-- Numbers are always positional, and whole ones have no point. Of two equally
    near decimals the larger one is written. -/
def numberFormat : NumberNotation where
  tie := .up
  positional _ := true
  whole := ""

/-- A floating-point number. -/
def float (x : Double) : String :=
  if x.isNaN then "NaN"
  else if x.isInfinite then (if x.isNegative then "-Infinity" else "Infinity")
  else numberFormat.write x

/-- A whole number in decimal. -/
def integer (n : Int) : String :=
  (if n < 0 then "-" else "") ++ String.ofList (Nat.toDigits 10 n.natAbs)

/-- The name of a member or of a declaration; that of a constructor differs in
    the script. -/
def rename (name : String) : String :=
  if name == "__construct" then "constructor" else name

end PhpScript.Script
