/-!
# UTF-8

Encoding characters as bytes and reading bytes back. A byte sequence may hold
parts that are no UTF-8; each maximal such part, that is each longest run that
begins like a character and cannot be completed, is one `none` among the parts
that `Utf8.parts` reads.

* `Utf8.decode?` accepts only valid input;
* `Utf8.decodeLossy` puts U+FFFD in place of each invalid part.
-/

namespace PhpScript.Utf8

/-- The bytes of a run of characters. -/
def encode (cs : List Char) : List UInt8 := cs.flatMap String.utf8EncodeChar

/-- What the first byte of a character announces. -/
structure Lead where
  /-- How many bytes follow. -/
  more : Nat
  /-- The smallest value of the first of them. -/
  low : UInt8
  /-- The largest value of the first of them. -/
  high : UInt8
  /-- The bits of the code point that the first byte holds. -/
  bits : Nat
deriving Repr

/-- The announcement of a first byte, when it can begin a character. The ranges
    exclude overlong forms, surrogates and code points past U+10FFFF. -/
def Lead.ofByte? (b : UInt8) : Option Lead :=
  if b < 0x80 then some ⟨0, 0x80, 0xBF, b.toNat⟩
  else if b < 0xC2 then none
  else if b < 0xE0 then some ⟨1, 0x80, 0xBF, b.toNat % 32⟩
  else if b = 0xE0 then some ⟨2, 0xA0, 0xBF, b.toNat % 16⟩
  else if b = 0xED then some ⟨2, 0x80, 0x9F, b.toNat % 16⟩
  else if b < 0xF0 then some ⟨2, 0x80, 0xBF, b.toNat % 16⟩
  else if b = 0xF0 then some ⟨3, 0x90, 0xBF, b.toNat % 8⟩
  else if b < 0xF4 then some ⟨3, 0x80, 0xBF, b.toNat % 8⟩
  else if b = 0xF4 then some ⟨3, 0x80, 0x8F, b.toNat % 8⟩
  else none

/-- Reads `more` continuation bytes, the first of them between `low` and `high`.
    Gives the character, or nothing at the first byte that does not continue it,
    with the bytes left. -/
def continueChar : (more : Nat) → (low high : UInt8) → (bits : Nat) → List UInt8 →
    Option Char × List UInt8
  | 0, _, _, bits, rest => (some (Char.ofNat bits), rest)
  | _ + 1, _, _, _, [] => (none, [])
  | n + 1, low, high, bits, b :: rest =>
    if low ≤ b ∧ b ≤ high then continueChar n 0x80 0xBF (bits * 64 + b.toNat % 64) rest
    else (none, b :: rest)

theorem length_continueChar (more : Nat) (low high : UInt8) (bits : Nat) (bs : List UInt8) :
    (continueChar more low high bits bs).2.length ≤ bs.length := by
  fun_induction continueChar more low high bits bs with
  | case1 => simp
  | case2 => simp
  | case3 n low high bits b rest _ ih => simp; omega
  | case4 => simp

/-- The characters of a byte sequence, with `none` for each invalid part. -/
def parts : List UInt8 → List (Option Char)
  | [] => []
  | b :: rest =>
    match Lead.ofByte? b with
    | none => none :: parts rest
    | some lead =>
      let next := continueChar lead.more lead.low lead.high lead.bits rest
      next.1 :: parts next.2
termination_by bs => bs.length
decreasing_by
  · simp
  · have := length_continueChar lead.more lead.low lead.high lead.bits rest
    simp only [List.length_cons]; omega

/-- The text of a valid byte sequence. -/
def decode? (bs : List UInt8) : Option String :=
  ((parts bs).mapM id).map String.ofList

/-- The text of a byte sequence, with U+FFFD for each invalid part. -/
def decodeLossy (bs : List UInt8) : String :=
  String.ofList ((parts bs).map (·.getD '\uFFFD'))

end PhpScript.Utf8
