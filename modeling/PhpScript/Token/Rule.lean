import PhpScript.Token.Kind

/-!
# Lexical rules

A rule recognises one class of text at the start of the code that remains, and
says how many characters of it belong to the class. Among all rules the one
that reaches furthest wins (`Rule.longest?`); of two that reach equally far the
earlier one in `Rule.all` does, where the keywords stand before the names.

Every class here is such that taking as much as possible at each step gives
the longest match, so `Rule.reach?` needs no search.
-/

namespace PhpScript

/-! ## Character classes -/

/-- A character that can begin a name. All characters outside ASCII can. -/
def isNameStart (c : Char) : Bool :=
  ('a' ≤ c && c ≤ 'z') || ('A' ≤ c && c ≤ 'Z') || c == '_' || 0x80 ≤ c.toNat

/-- A character that can continue a name. -/
def isNamePart (c : Char) : Bool := isNameStart c || ('0' ≤ c && c ≤ '9')

/-- The white space between tokens. -/
def isCodeBlank (c : Char) : Bool :=
  c == ' ' || c == '\t' || c == '\r' || c == '\n' || c == '\x0c'

/-- A decimal digit. -/
def isDecimal (c : Char) : Bool := '0' ≤ c && c ≤ '9'

/-- A hexadecimal digit. -/
def isHex (c : Char) : Bool := isDecimal c || ('a' ≤ c && c ≤ 'f') || ('A' ≤ c && c ≤ 'F')

/-- An octal digit. -/
def isOctal (c : Char) : Bool := '0' ≤ c && c ≤ '7'

/-- A binary digit. -/
def isBinary (c : Char) : Bool := c == '0' || c == '1'

/-- A character of the class, or an underscore among digits. -/
def orUnderscore (p : Char → Bool) (c : Char) : Bool := p c || c == '_'

/-! ## Rules -/

/-- The classes of text in code. -/
inductive Rule
  | keyword (word : Keyword)
  | symbol (mark : Symbol)
  | varName
  | identifier
  /-- `42`, `1_000` -/
  | decimalInteger
  /-- `0x1F` -/
  | hexInteger
  /-- `0o17` -/
  | octalInteger
  /-- `0b101` -/
  | binaryInteger
  /-- `1.`, `1.5`, `1.5e3` -/
  | pointFloat
  /-- `.5`, `.5e3` -/
  | leadingPointFloat
  /-- `1e3` -/
  | exponentFloat
  | singleQuoted
  | doubleQuoted
  /-- White space. -/
  | blank
  /-- `//` and the rest of the line. -/
  | slashComment
  /-- The opening of a comment that runs to the end of the line. -/
  | hashComment
  /-- The opening of a comment that runs to its closing mark. -/
  | blockComment
deriving DecidableEq, Repr

namespace Rule

/-- The number of characters at the start of `cs` that are in the class. -/
def run (p : Char → Bool) (cs : List Char) : Nat := (cs.takeWhile p).length

/-- One character of the class `p`, then as many of the class `q` as there are. -/
def startThenRun? (p q : Char → Bool) : List Char → Option Nat
  | [] => none
  | c :: cs => if p c then some (1 + run q cs) else none

/-- The length of a text that `cs` starts with. -/
def exactly? (text cs : List Char) : Option Nat :=
  if text.isPrefixOf cs then some text.length else none

/-- A zero, one of two letters, a digit of the class, then digits and underscores. -/
def prefixed? (lower upper : Char) (digit : Char → Bool) : List Char → Option Nat
  | zero :: letter :: cs =>
    if zero == '0' && (letter == lower || letter == upper) then
      (startThenRun? digit (orUnderscore digit) cs).map (2 + ·)
    else none
  | _ => none

/-- The length of an exponent that `cs` starts with: a letter, an optional sign
    and digits. -/
def exponent? : List Char → Option Nat
  | [] => none
  | e :: cs =>
    if e == 'e' || e == 'E' then
      match cs with
      | [] => none
      | sign :: ds =>
        if sign == '+' || sign == '-' then (startThenRun? isDecimal isDecimal ds).map (2 + ·)
        else (startThenRun? isDecimal isDecimal cs).map (1 + ·)
    else none

/-- Adds the length of an exponent after the first `n` characters, if there is one. -/
def withExponent (cs : List Char) (n : Nat) : Nat := n + (exponent? (cs.drop n)).getD 0

/-- Digits and underscores, beginning with a digit. -/
def digits? (cs : List Char) : Option Nat := startThenRun? isDecimal (orUnderscore isDecimal) cs

/-- What follows an opening quote, up to and with the closing one. A backslash
    takes the next character with it, whatever that is. -/
def quotedBody? (quote : Char) : List Char → Option Nat
  | [] => none
  | c :: cs =>
    if c == quote then some 1
    else if c == '\\' then
      match cs with
      | [] => none
      | _ :: cs => (quotedBody? quote cs).map (2 + ·)
    else (quotedBody? quote cs).map (1 + ·)

/-- A quoted text with its quotes. -/
def quoted? (quote : Char) : List Char → Option Nat
  | [] => none
  | c :: cs => if c == quote then (quotedBody? quote cs).map (1 + ·) else none

/-- The number of characters that the rule takes at the start of `cs`, when the
    code there is of its class. For the comments that run on, only their opening. -/
def reach? : Rule → List Char → Option Nat
  | keyword k, cs => exactly? k.text.toList ((cs.take k.text.length).map Char.toLower)
  | symbol s, cs => exactly? s.text.toList cs
  | varName, cs =>
    match cs with
    | [] => none
    | c :: cs => if c == '$' then (startThenRun? isNameStart isNamePart cs).map (1 + ·) else none
  | identifier, cs => startThenRun? isNameStart isNamePart cs
  | decimalInteger, cs => digits? cs
  | hexInteger, cs => prefixed? 'x' 'X' isHex cs
  | octalInteger, cs => prefixed? 'o' 'O' isOctal cs
  | binaryInteger, cs => prefixed? 'b' 'B' isBinary cs
  | pointFloat, cs => do
    let n ← digits? cs
    match cs.drop n with
    | [] => none
    | c :: ds =>
      if c == '.' then some (withExponent cs (n + 1 + run (orUnderscore isDecimal) ds)) else none
  | leadingPointFloat, cs =>
    match cs with
    | [] => none
    | c :: ds => if c == '.' then (digits? ds).map fun n => withExponent cs (1 + n) else none
  | exponentFloat, cs => do
    let n ← digits? cs
    let m ← exponent? (cs.drop n)
    return n + m
  | singleQuoted, cs => quoted? '\'' cs
  | doubleQuoted, cs => quoted? '"' cs
  | blank, cs => startThenRun? isCodeBlank isCodeBlank cs
  | slashComment, cs => (exactly? ['/', '/'] cs).map fun n => n + run (· != '\n') (cs.drop n)
  | hashComment, cs => exactly? ['#'] cs
  | blockComment, cs => exactly? ['/', '*'] cs

/-- Every rule, keywords first. -/
def all : List Rule :=
  Keyword.all.map keyword ++ Symbol.all.map symbol ++
    [varName, identifier, decimalInteger, hexInteger, octalInteger, binaryInteger, pointFloat,
     leadingPointFloat, exponentFloat, singleQuoted, doubleQuoted, blank, slashComment,
     hashComment, blockComment]

/-- The better of the best match so far and the next one: the longer, and the
    earlier at equal length. -/
def better (best : Option (Rule × Nat)) (next : Option (Rule × Nat)) : Option (Rule × Nat) :=
  match best, next with
  | some (r, m), some (s, n) => if m < n then some (s, n) else some (r, m)
  | none, next => next
  | best, none => best

/-- The rule that reaches furthest at the start of `cs`, with its reach. -/
def longest? (cs : List Char) : Option (Rule × Nat) :=
  all.foldl (fun best r => better best ((r.reach? cs).map (r, ·))) none

end Rule

end PhpScript
