import PhpScript.Number.Reader
import PhpScript.Text.Bytes
import PhpScript.Text.Utf8

/-!
# Quoted literals

Decoding the text of a single-quoted or double-quoted literal, given with its
quotes.

* In single quotes only the quote and the backslash can be escaped.
* In double quotes there are escapes for control characters, for bytes in octal
  and hexadecimal, and for code points. A text that interpolates a variable has
  no plain value, and `doubleQuoted?` gives none for it. Escapes can spell bytes
  that are no UTF-8; those become U+FFFD in the end.
-/

namespace PhpScript.Literal

/-- The text between the quotes; nothing when the first and the last byte are
    no characters of their own. -/
def body (raw : String) : String :=
  (Text.slice? raw 1 (raw.utf8ByteSize - 1)).getD ""

/-! ## Single quotes -/

/-- Replaces an escaped quote or backslash by itself. -/
def unescapeSingle : List Char → List Char
  | [] => []
  | '\\' :: '\'' :: cs => '\'' :: unescapeSingle cs
  | '\\' :: '\\' :: cs => '\\' :: unescapeSingle cs
  | c :: cs => c :: unescapeSingle cs

/-- The value of a single-quoted literal. -/
def singleQuoted (raw : String) : String :=
  String.ofList (unescapeSingle (body raw).toList)

/-! ## Double quotes -/

/-- The byte of an ASCII character. -/
def byte (c : Char) : UInt8 := UInt8.ofNat c.toNat

/-- The character of an ASCII byte. -/
def asciiChar (b : UInt8) : Char := Char.ofNat b.toNat

/-- Whether a byte is a digit of the radix. -/
def isDigitByte (radix : Nat) (b : UInt8) : Bool := b < 0x80 && isDigitOf radix (asciiChar b)

/-- The number that digit bytes spell. -/
def valueOfBytes (radix : Nat) (bs : List UInt8) : Nat := positionalValue radix (bs.map asciiChar)

/-- Whether the byte `b`, before `rest`, begins an interpolated variable. -/
def opensInterpolation (b : UInt8) (rest : List UInt8) : Bool :=
  match rest with
  | [] => false
  | n :: _ =>
    (b == byte '$' && (n == byte '_' || (asciiChar n).isAlpha || 0x80 ≤ n)) ||
    (b == byte '\x7b' && n == byte '$')

/-- The code point that the hexadecimal digits between braces spell, with an
    optional plus sign before them. -/
def codePoint? (digits : List UInt8) : Option Char :=
  let digits := match digits with
    | b :: ds => if b == byte '+' then ds else digits
    | [] => []
  if digits.isEmpty || !digits.all (isDigitByte 16) then none
  else
    let n := valueOfBytes 16 digits
    if h : n.isValidChar then some (Char.ofNatAux n h) else none

/-- The byte that a backslash with one further byte stands for. -/
def namedEscape? (b : UInt8) : Option UInt8 :=
  if b == byte 'n' then some 0x0A
  else if b == byte 't' then some 0x09
  else if b == byte 'r' then some 0x0D
  else if b == byte 'v' then some 0x0B
  else if b == byte 'e' then some 0x1B
  else if b == byte 'f' then some 0x0C
  else if b == byte '\\' || b == byte '$' || b == byte '"' then some b
  else none

/-- The code point between braces at the start of `rest`, and what follows. -/
def bracedCodePoint? : List UInt8 → Option (Char × List UInt8)
  | [] => none
  | b :: rest =>
    if b == byte '\x7b' then
      match rest.dropWhile (· != byte '\x7d') with
      | [] => none
      | _ :: tail => (codePoint? (rest.takeWhile (· != byte '\x7d'))).map (·, tail)
    else none

/-- The digits of the radix at the start of `rest`, two at most. -/
def digitsAhead (radix : Nat) (rest : List UInt8) : List UInt8 :=
  (rest.take 2).takeWhile (isDigitByte radix)

/-- The bytes that an escape stands for, and what is left after it. The escape
    is the backslash, which has been taken, with the byte `b` and some of `rest`.
    A backslash that begins no escape stands for itself. -/
def escape (b : UInt8) (rest : List UInt8) : List UInt8 × List UInt8 :=
  match namedEscape? b with
  | some out => ([out], rest)
  | none =>
    if isDigitByte 8 b then
      ([UInt8.ofNat (valueOfBytes 8 (b :: digitsAhead 8 rest))],
        rest.drop (digitsAhead 8 rest).length)
    else if b == byte 'x' && !(digitsAhead 16 rest).isEmpty then
      ([UInt8.ofNat (valueOfBytes 16 (digitsAhead 16 rest))],
        rest.drop (digitsAhead 16 rest).length)
    else if b == byte 'u' then
      match bracedCodePoint? rest with
      | some (c, tail) => (String.utf8EncodeChar c, tail)
      | none => ([byte '\\', b], rest)
    else ([byte '\\', b], rest)

theorem length_bracedCodePoint? {bs tail : List UInt8} {c : Char}
    (h : bracedCodePoint? bs = some (c, tail)) : tail.length < bs.length := by
  match bs with
  | [] => simp [bracedCodePoint?] at h
  | b :: rest =>
    simp only [bracedCodePoint?] at h
    split at h
    · split at h
      · cases h
      · rename_i hd
        obtain ⟨_, -, heq⟩ := Option.map_eq_some_iff.1 h
        cases heq
        have := (List.dropWhile_sublist (· != byte '\x7d') (l := rest)).length_le
        rw [hd] at this
        simp only [List.length_cons] at this ⊢
        omega
    · cases h

theorem length_escape (b : UInt8) (rest : List UInt8) :
    (escape b rest).2.length ≤ rest.length := by
  unfold escape
  split
  · simp
  · split
    · simp
    · split
      · simp
      · split
        · split
          · rename_i h
            exact Nat.le_of_lt (length_bracedCodePoint? h)
          · simp
        · simp

/-- The bytes that the body of a double-quoted literal stands for, unless it
    interpolates a variable. A backslash at the very end stands for itself. -/
def unescapeDouble? : List UInt8 → Option (List UInt8)
  | [] => some []
  | b :: rest =>
    if opensInterpolation b rest then none
    else if b == byte '\\' then
      match rest with
      | [] => some [b]
      | e :: tail =>
        let next := escape e tail
        (unescapeDouble? next.2).map (next.1 ++ ·)
    else (unescapeDouble? rest).map (b :: ·)
termination_by bs => bs.length
decreasing_by
  · have := length_escape e tail
    simp only [List.length_cons]; omega
  · simp

/-- The value of a double-quoted literal, unless it interpolates a variable. -/
def doubleQuoted? (raw : String) : Option String :=
  (unescapeDouble? (Utf8.encode (body raw).toList)).map Utf8.decodeLossy

end PhpScript.Literal
