import PhpScript.Json.Value
import PhpScript.Number.Reader
import PhpScript.Text.Utf8

/-!
# Reading JSON

A reader of JSON text, byte by byte. It refuses the text at the first byte that
no JSON text can hold there, and names the place by line and column, where the
column is the number of bytes of the line up to and with that byte.

Arrays and objects may be nested at most `Json.maxDepth` deep. A reader of one
value at a depth is built from the reader one level further in, so the number
of levels left is what the recursion runs on.
-/

namespace PhpScript

namespace Json

/-! ## Errors -/

/-- Why a text is no JSON. -/
inductive Fault
  | endInValue
  | endInArray
  | endInObject
  | endInString
  | expectedValue
  | expectedWord
  | expectedColon
  | expectedArrayCommaOrEnd
  | expectedObjectCommaOrEnd
  | expectedKey
  | trailingComma
  | trailingCharacters
  | invalidNumber
  | numberOutOfRange
  | invalidEscape
  | unpairedEscape
  | loneSurrogate
  | controlCharacter
  | tooDeep
deriving DecidableEq, Repr

/-- The fault in words. -/
def Fault.message : Fault → String
  | endInValue => "EOF while parsing a value"
  | endInArray => "EOF while parsing a list"
  | endInObject => "EOF while parsing an object"
  | endInString => "EOF while parsing a string"
  | expectedValue => "expected value"
  | expectedWord => "expected ident"
  | expectedColon => "expected `:`"
  | expectedArrayCommaOrEnd => "expected `,` or `]`"
  | expectedObjectCommaOrEnd => "expected `,` or `\x7d`"
  | expectedKey => "key must be a string"
  | trailingComma => "trailing comma"
  | trailingCharacters => "trailing characters"
  | invalidNumber => "invalid number"
  | numberOutOfRange => "number out of range"
  | invalidEscape => "invalid escape"
  | unpairedEscape => "unexpected end of hex escape"
  | loneSurrogate => "lone leading surrogate in hex escape"
  | controlCharacter => "control character (\\u0000-\\u001F) found while parsing a string"
  | tooDeep => "recursion limit exceeded"

/-- A fault and its place. -/
structure SyntaxError where
  fault : Fault
  line : Nat
  column : Nat
deriving DecidableEq, Repr

/-- The error in words. -/
def SyntaxError.message (e : SyntaxError) : String :=
  s!"{e.fault.message} at line {e.line} column {e.column}"

/-- A fault and the number of bytes that were not read before it. -/
structure Failure where
  fault : Fault
  left : Nat
deriving DecidableEq, Repr

/-- Places a failure in the text it was found in: lines end at line feeds. -/
def Failure.locate (f : Failure) (text : List UInt8) : SyntaxError :=
  let read := text.take (text.length - f.left)
  let isBreak (b : UInt8) := b == 0x0A
  ⟨f.fault, read.countP isBreak + 1, (read.reverse.takeWhile (!isBreak ·)).length⟩

/-- A reader takes bytes off the front of what is left, or fails. -/
abbrev Reader := StateT (List UInt8) (Except Failure)

namespace Reader

/-- Fails after the bytes read so far. -/
def fail (fault : Fault) : Reader α := fun rest => .error ⟨fault, rest.length⟩

/-- Fails at the byte that comes next, which is counted as read. -/
def failAtNext (fault : Fault) : Reader α := fun rest => .error ⟨fault, rest.tail.length⟩

/-- The byte that comes next. -/
def peek : Reader (Option UInt8) := fun rest => .ok (rest.head?, rest)

/-- Takes the next byte. -/
def skip : Reader Unit := fun rest => .ok ((), rest.tail)

/-- The next byte, taken. -/
def next : Reader (Option UInt8) := fun rest => .ok (rest.head?, rest.tail)

/-- The bytes of a class that come next, taken. -/
def takeRun (p : UInt8 → Bool) : Reader (List UInt8) :=
  fun rest => .ok (rest.takeWhile p, rest.dropWhile p)

/-- The byte after white space. -/
def peekAfterBlanks : Reader (Option UInt8) := do
  let _ ← takeRun fun b => b == 0x20 || b == 0x0A || b == 0x09 || b == 0x0D
  peek

/-! ## Words -/

/-- The rest of a word whose first letter has been taken. -/
def word (value : Json) : List UInt8 → Reader Json
  | [] => pure value
  | b :: bs => do
    match ← next with
    | none => fail .endInValue
    | some c => if c == b then word value bs else fail .expectedWord

/-! ## Numbers -/

/-- Whether a byte is a decimal digit. -/
def isDigit (b : UInt8) : Bool := 0x30 ≤ b && b ≤ 0x39

/-- The number that a decimal digit stands for. -/
def digitOf (b : UInt8) : Nat := b.toNat - 0x30

/-- The number that digits spell after those of `n`, as long as 64 bits hold it, and the
    digits that are left then. -/
def significand (n : Nat) : List UInt8 → Nat × List UInt8
  | [] => (n, [])
  | d :: ds =>
    let more := n * 10 + digitOf d
    if more < twoTo 64 then significand more ds else (n, d :: ds)

/-- The largest exponent that is looked at. -/
def maxExponent : Nat := 2147483647

/-- The number that the digits of an exponent spell after those of `n`; or, if it passes
    `maxExponent`, the digits after the one with which it does. -/
def exponentOf (n : Nat) : List UInt8 → Except (List UInt8) Nat
  | [] => .ok n
  | d :: ds =>
    let more := n * 10 + digitOf d
    if maxExponent < more then .error ds else exponentOf more ds

/-- The largest power of ten by which a number is scaled at once. -/
def maxPower : Nat := 308

/-- A number divided by a power of ten, in as many steps as it takes. -/
def scaleDown (x : Double) (n : Nat) : Double :=
  if n ≤ maxPower then x.div (.ofNat (tenTo n))
  else if x.isZero then x
  else scaleDown (x.div (.ofNat (tenTo maxPower))) (n - maxPower)
termination_by n
decreasing_by simp only [maxPower] at *; omega

/-- The number `n * 10^exponent`, which has to be finite. It is not always the nearest one:
    `n`, the power of ten, and their product or quotient are each rounded. -/
def real (negative : Bool) (n : Nat) (exponent : Int) : Reader Json :=
  let x := Double.ofNat n
  let signed (x : Double) : Json := .real (if negative then x.neg else x)
  if exponent < 0 then pure (signed (scaleDown x (-exponent).toNat))
  else if exponent ≤ maxPower then
    let product := x.mul (.ofNat (tenTo exponent.toNat))
    if product.isInfinite then fail .numberOutOfRange else pure (signed product)
  else if x.isZero then pure (signed x)
  else fail .numberOutOfRange

/-- The exponent of a number, from its letter on, and with it the number. -/
def exponent (negative : Bool) (n : Nat) (scale : Int) : Reader Json := do
  skip
  let sign ← peek
  let down := sign == some 0x2D
  if sign == some 0x2B || down then skip
  match ← next with
  | none => fail .endInValue
  | some d =>
    if !isDigit d then fail .invalidNumber
    else
      let more ← takeRun isDigit
      match exponentOf 0 (d :: more) with
      | .ok e => real negative n (if down then scale - e else scale + e)
      | .error unread =>
        if n != 0 && !down then
          fun rest => .error ⟨.numberOutOfRange, (unread ++ rest).length⟩
        else pure (.real (.zero negative))

/-- Whether an exponent comes next. -/
def atExponent : Reader Bool := do
  let b ← peek
  return b == some 0x65 || b == some 0x45

/-- The part of a number from its point on, and with it the number. Digits that the
    significand has no place for are passed over. -/
def fraction (negative : Bool) (n : Nat) (scale : Nat) : Reader Json := do
  skip
  let places ← takeRun isDigit
  if places.isEmpty then
    failAtNext (if (← peek).isSome then .invalidNumber else .endInValue)
  else
    let (n, unread) := significand n places
    let scale : Int := scale - (places.length - unread.length)
    if ← atExponent then exponent negative n scale
    else real negative n scale

/-- A number without point and exponent that 64 bits hold: a whole number, unless it needs
    more with its sign. Minus zero is none either. -/
def wholeNumber (negative : Bool) (n : Nat) : Json :=
  if !negative then .integer n
  else if 0 < n ∧ n ≤ twoTo 63 then .integer (-n)
  else .real (Double.ofNat n).neg

/-- A number, after its sign. -/
def number (negative : Bool) : Reader Json := do
  match ← next with
  | none => fail .endInValue
  | some d =>
    if !isDigit d then fail .invalidNumber
    else
      let more ← takeRun isDigit
      if d == 0x30 && !more.isEmpty then
        fun rest => .error ⟨.invalidNumber, (more ++ rest).length - 1⟩
      else
        -- A digit that the significand has no place for counts as a power of ten.
        let (n, unread) := significand 0 (d :: more)
        if (← peek) == some 0x2E then fraction negative n unread.length
        else if ← atExponent then exponent negative n unread.length
        else if unread.isEmpty then pure (wholeNumber negative n)
        else real negative n unread.length

/-! ## Strings -/

/-- The value of a hexadecimal digit. -/
def hexValue? (b : UInt8) : Option Nat :=
  if b < 0x80 then (digitValue? (Char.ofNat b.toNat)).filter (· < 16) else none

/-- The four hexadecimal digits at the start of the bytes. -/
def fourHex : List UInt8 → Except Failure Nat
  | a :: b :: c :: d :: rest =>
    match [a, b, c, d].mapM hexValue? with
    | some digits => .ok (digits.foldl (fun n d => n * 16 + d) 0)
    | none => .error ⟨.invalidEscape, rest.length⟩
  | _ => .error ⟨.endInString, 0⟩

/-- The second half of a surrogate pair, whose first half is `high`: another
    escape. Gives the code point. -/
def lowSurrogate (high : Nat) : List UInt8 → Except Failure Nat
  | [] => .error ⟨.endInString, 0⟩
  | [b] => .error ⟨if b == 0x5C then .endInString else .unpairedEscape, 0⟩
  | b :: u :: rest =>
    if b != 0x5C then .error ⟨.unpairedEscape, (u :: rest).length⟩
    else if u != 0x75 then .error ⟨.unpairedEscape, rest.length⟩
    else do
      let low ← fourHex rest
      if 0xDC00 ≤ low ∧ low ≤ 0xDFFF then
        return (high - 0xD800) * 0x400 + (low - 0xDC00) + 0x10000
      else .error ⟨.loneSurrogate, (rest.drop 4).length⟩

/-- What a backslash and one letter stand for. -/
def namedEscape? (b : UInt8) : Option UInt8 :=
  if b == 0x22 || b == 0x5C || b == 0x2F then some b
  else if b == 0x62 then some 0x08
  else if b == 0x66 then some 0x0C
  else if b == 0x6E then some 0x0A
  else if b == 0x72 then some 0x0D
  else if b == 0x74 then some 0x09
  else none

/-- The bytes that an escape stands for, and the number of bytes it takes after
    its backslash. -/
def escape : List UInt8 → Except Failure (List UInt8 × Nat)
  | [] => .error ⟨.endInString, 0⟩
  | b :: rest =>
    match namedEscape? b with
    | some out => .ok ([out], 1)
    | none =>
      if b != 0x75 then .error ⟨.invalidEscape, rest.length⟩
      else do
        let n ← fourHex rest
        if 0xDC00 ≤ n ∧ n ≤ 0xDFFF then .error ⟨.loneSurrogate, (rest.drop 4).length⟩
        else if 0xD800 ≤ n ∧ n ≤ 0xDBFF then
          let c ← lowSurrogate n (rest.drop 4)
          return (String.utf8EncodeChar (Char.ofNat c), 11)
        else return (String.utf8EncodeChar (Char.ofNat n), 5)

/-- The bytes of a string whose opening quote has been taken, and what follows
    its closing quote. -/
def stringBody : List UInt8 → Except Failure (List UInt8 × List UInt8)
  | [] => .error ⟨.endInString, 0⟩
  | b :: rest =>
    if b == 0x22 then .ok ([], rest)
    else if b == 0x5C then do
      let (out, n) ← escape rest
      let (body, after) ← stringBody (rest.drop n)
      return (out ++ body, after)
    else if b < 0x20 then .error ⟨.controlCharacter, rest.length⟩
    else do
      let (body, after) ← stringBody rest
      return (b :: body, after)
termination_by bs => bs.length
decreasing_by all_goals (simp only [List.length_drop, List.length_cons]; omega)

/-- A string whose opening quote has been taken. -/
def string : Reader String := fun rest => do
  let (body, after) ← stringBody rest
  return (Utf8.decodeLossy body, after)

/-! ## Arrays and objects -/

/-- Whether another item follows in an array, and if so, all that stands before it. -/
def atItem (first : Bool) : Reader Bool := do
  match ← peekAfterBlanks with
  | none => failAtNext .endInArray
  | some b =>
    if b == 0x5D then pure false
    else if first then pure true
    else if b == 0x2C then
      skip
      match ← peekAfterBlanks with
      | none => failAtNext .endInValue
      | some b => if b == 0x5D then failAtNext .trailingComma else pure true
    else failAtNext .expectedArrayCommaOrEnd

/-- The items of an array up to its end, which is taken. Each item takes a byte,
    so the bytes left bound the rounds. -/
def items (value : Reader Json) : (bound : List UInt8) → (first : Bool) → Reader (List Json)
  | [], first => do
    let _ ← atItem first
    return []
  | _ :: bound, first => do
    if ← atItem first then
      let item ← value
      let rest ← items value bound false
      return item :: rest
    else
      skip
      return []

/-- Whether another member follows in an object, and if so, all that stands
    before its name. -/
def atMember (first : Bool) : Reader Bool := do
  match ← peekAfterBlanks with
  | none => failAtNext .endInObject
  | some b =>
    if b == 0x7D then pure false
    else if first then
      if b == 0x22 then pure true else failAtNext .expectedKey
    else if b == 0x2C then
      skip
      match ← peekAfterBlanks with
      | none => failAtNext .endInValue
      | some b =>
        if b == 0x22 then pure true
        else failAtNext (if b == 0x7D then .trailingComma else .expectedKey)
    else failAtNext .expectedObjectCommaOrEnd

/-- The colon after the name of a member. -/
def colon : Reader Unit := do
  match ← peekAfterBlanks with
  | none => failAtNext .endInObject
  | some b => if b == 0x3A then skip else failAtNext .expectedColon

/-- The members of an object up to its end, which is taken, added to those
    before. A name that comes again replaces its value. -/
def members (value : Reader Json) :
    (bound : List UInt8) → (before : List (String × Json)) → Reader (List (String × Json))
  | [], before => do
    let _ ← atMember before.isEmpty
    return before
  | _ :: bound, before => do
    if ← atMember before.isEmpty then
      skip
      let name ← string
      colon
      let item ← value
      members value bound (Json.insert name item before)
    else
      skip
      return before

/-! ## Values -/

/-- A value, in which arrays and objects are read by `array` and `object`. -/
def valueWith (array object : Reader Json) : Reader Json := do
  match ← peekAfterBlanks with
  | none => failAtNext .endInValue
  | some b =>
    if b == 0x6E then do skip; word .null [0x75, 0x6C, 0x6C]
    else if b == 0x74 then do skip; word (.bool true) [0x72, 0x75, 0x65]
    else if b == 0x66 then do skip; word (.bool false) [0x61, 0x6C, 0x73, 0x65]
    else if b == 0x2D then do skip; number true
    else if isDigit b then number false
    else if b == 0x22 then do skip; return .string (← string)
    else if b == 0x5B then array
    else if b == 0x7B then object
    else failAtNext .expectedValue

/-- A value in which arrays and objects are nested at most `levels` deep. -/
def value : (levels : Nat) → Reader Json
  | 0 => valueWith (failAtNext .tooDeep) (failAtNext .tooDeep)
  | levels + 1 =>
    valueWith
      (do skip; return .array (← items (value levels) (← get) true))
      (do skip; return .object (← members (value levels) (← get) []))

end Reader

/-- How deep arrays and objects may be nested. -/
def maxDepth : Nat := 127

/-- The value that a whole text spells. -/
def ofText (text : String) : Except SyntaxError Json :=
  let bytes := Utf8.encode text.toList
  let document : Reader Json := do
    let json ← Reader.value maxDepth
    match ← Reader.peekAfterBlanks with
    | none => pure json
    | some _ => Reader.failAtNext .trailingCharacters
  match document.run bytes with
  | .ok (json, _) => .ok json
  | .error failure => .error (failure.locate bytes)

end Json

end PhpScript
