import PhpScript.Json.Value
import PhpScript.Number.Notation

/-!
# Writing JSON

A JSON value as indented text: two blanks for each level, one item or member on
a line, and nothing between the brackets of an empty array or object.
-/

namespace PhpScript.Json

/-- Floating-point numbers are positional from 1e-5 up to 1e16 and have a digit
    after the point there. Of two equally near decimals the even one is written. -/
def numberFormat : NumberNotation where
  tie := .toEven
  positional e := -5 ≤ e && e < 16
  whole := ".0"

/-- A floating-point number; one that is not finite is null. -/
def writeReal (x : Double) : String :=
  if x.isFinite then numberFormat.write x else "null"

/-- A whole number in decimal. -/
def writeInteger (n : Int) : String :=
  (if n < 0 then "-" else "") ++ String.ofList (Nat.toDigits 10 n.natAbs)

/-- One character of a string. Control characters without an escape of their
    own are written by their code. -/
def writeChar (c : Char) : String :=
  if c == '"' then "\\\""
  else if c == '\\' then "\\\\"
  else if c == '\x08' then "\\b"
  else if c == '\t' then "\\t"
  else if c == '\n' then "\\n"
  else if c == '\x0c' then "\\f"
  else if c == '\r' then "\\r"
  else if c.toNat < 0x20 then
    "\\u00" ++ String.ofList [Nat.digitChar (c.toNat / 16), Nat.digitChar (c.toNat % 16)]
  else String.ofList [c]

/-- A string in its quotes. -/
def writeString (text : String) : String :=
  "\"" ++ String.join (text.toList.map writeChar) ++ "\""

/-- A new line at a level. -/
def newLine (level : Nat) : String := "\n" ++ String.ofList (List.replicate (2 * level) ' ')

/-- Texts between brackets, each on a line of its own one level further in than
    the closing bracket; without a text the brackets stand together. -/
def enclose (opening closing : String) (level : Nat) : List String → String
  | [] => opening ++ closing
  | parts =>
    opening ++ newLine (level + 1) ++ String.intercalate ("," ++ newLine (level + 1)) parts ++
      newLine level ++ closing

mutual

/-- The text of a value that stands at a level. -/
def writeAt (level : Nat) : Json → String
  | null => "null"
  | bool value => if value then "true" else "false"
  | integer value => writeInteger value
  | real value => writeReal value
  | string value => writeString value
  | array items => enclose "[" "]" level (writeItems (level + 1) items)
  | object members => enclose "\x7b" "\x7d" level (writeMembers (level + 1) members)

/-- The texts of the items of an array. -/
def writeItems (level : Nat) : List Json → List String
  | [] => []
  | item :: rest => writeAt level item :: writeItems level rest

/-- The texts of the members of an object. -/
def writeMembers (level : Nat) : List (String × Json) → List String
  | [] => []
  | (name, value) :: rest =>
    (writeString name ++ ": " ++ writeAt level value) :: writeMembers level rest

end

/-- The text of a value. -/
def write (json : Json) : String := writeAt 0 json

end PhpScript.Json
