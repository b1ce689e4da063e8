import PhpScript.Proofs.Literal.Interpolation
import PhpScript.Proofs.Text.Utf8

/-!
# The characters of a decoded literal

A literal in double quotes is decoded byte by byte, and on the way the decoder may stand inside
a character: after a backslash it takes one byte along, whatever it is the first byte of. So
neither what has been decoded nor what is left need be whole characters, but both together are
(`unescapeDouble?_isValid`), unless an escape sequence spells a byte beyond ASCII by its number
(`SpellsAscii`).

`doubleQuoted?_isValid` says what follows for a literal: nothing is replaced in the end.
-/

namespace PhpScript.Literal

/-! ## Bytes by their number -/

theorem IsFree.suffix {bs rest : List UInt8} (h : IsFree bs rest) : rest <:+ bs := by
  induction h with
  | here => exact List.suffix_refl _
  | plain _ _ ih => exact ih.trans (List.suffix_cons _ _)
  | escape _ _ ih => exact ih.trans (List.suffix_append _ _)
  | kept _ _ ih => exact ih.trans (List.suffix_append [_, _] _)

/-- The escape sequence gives a byte by its number; of an octal one the last eight bits count. -/
inductive SpellsByte : List UInt8 → UInt8 → Prop
  | octal {digits : List UInt8} : digits.all (isDigitByte 8) →
    SpellsByte (byte '\\' :: digits) (UInt8.ofNat (valueOfBytes 8 digits))
  | hex {digits : List UInt8} : digits.all (isDigitByte 16) →
    SpellsByte (byte '\\' :: byte 'x' :: digits) (UInt8.ofNat (valueOfBytes 16 digits))

/-- The escape sequences that give a byte by its number give one of ASCII. -/
def SpellsAscii (bs : List UInt8) : Prop :=
  ∀ ⦃seq rest b⦄, IsFree bs (seq ++ rest) → IsLongestEscape seq rest → SpellsByte seq b → b < 0x80

namespace SpellsAscii

variable {b : UInt8} {bs : List UInt8}

theorem plain (h : SpellsAscii (b :: bs)) (hb : b ≠ byte '\\') : SpellsAscii bs :=
  fun _ _ _ hfree => h (.plain hb hfree)

theorem backslash (h : SpellsAscii (byte '\\' :: b :: bs)) : SpellsAscii (escape b bs).2 :=
  fun _ _ _ hfree => h (isFree_backslash hfree)

/-- What the first escape sequence gives by its number. -/
theorem first {taken : List UInt8} {value : UInt8} (h : SpellsAscii (byte '\\' :: b :: bs))
    (hseq : IsEscape (byte '\\' :: b :: taken)) (hbs : taken ++ (escape b bs).2 = bs)
    (hvalue : SpellsByte (byte '\\' :: b :: taken) value) : value < 0x80 := by
  have hbegins : byte '\\' :: b :: taken <+: byte '\\' :: b :: bs :=
    ⟨(escape b bs).2, by rw [List.cons_append, List.cons_append, hbs]⟩
  obtain ⟨taken', hlongest, hbs'⟩ := exists_isLongestEscape hseq hbegins
  obtain rfl := List.append_cancel_right (hbs'.trans hbs.symm)
  refine h ?_ hlongest hvalue
  rw [List.cons_append, List.cons_append, hbs]
  exact .here

end SpellsAscii

/-! ## One escape sequence -/

open Utf8 (IsValid)

theorem lt_of_isDigitByte {radix : Nat} {b : UInt8} (h : isDigitByte radix b) : b < 0x80 := by
  rw [isDigitByte, Bool.and_eq_true] at h
  simpa using h.1

theorem lt_of_namedEscape? {b out : UInt8} (h : namedEscape? b = some out) :
    b < 0x80 ∧ out < 0x80 := by
  have hb : b ∈ ['n', 't', 'r', 'v', 'e', 'f', '\\', '$', '"'].map byte := by
    by_contra hb
    cases (namedEscape?_eq_none_iff.2 hb).symm.trans h
  simp only [List.map_cons, List.map_nil, List.mem_cons, List.not_mem_nil, or_false] at hb
  rcases hb with rfl | rfl | rfl | rfl | rfl | rfl | rfl | rfl | rfl <;> cases h <;> decide

/-- What comes after ASCII bytes is whole characters, if they are so together. -/
theorem isValid_of_ascii {bs rest : List UInt8} (h : IsValid (bs ++ rest))
    (hbs : ∀ b ∈ bs, b < 0x80) : IsValid rest := by
  induction bs with
  | nil => exact h
  | cons b bs ih =>
    rw [List.forall_mem_cons] at hbs
    exact ih (IsValid.tail h hbs.1) hbs.2

theorem isValid_drop_digitsAhead (radix : Nat) {bs : List UInt8} (h : IsValid bs) :
    IsValid (bs.drop (digitsAhead radix bs).length) := by
  rw [← digitsAhead_append_drop radix bs] at h
  exact isValid_of_ascii h fun b hb =>
    lt_of_isDigitByte (List.all_eq_true.1 (all_digitsAhead radix bs) b hb)

/-- A backslash with what it takes along is replaced in place: before what is left, the bytes it
    stands for are whole characters where it was. -/
theorem escape_isValid {left bs : List UInt8} {b : UInt8}
    (h : IsValid (left ++ byte '\\' :: b :: bs)) (hascii : SpellsAscii (byte '\\' :: b :: bs)) :
    IsValid (left ++ ((escape b bs).1 ++ (escape b bs).2)) := by
  obtain ⟨hleft, hright⟩ := h.cut (by decide)
  have hrest : b < 0x80 → IsValid bs := hright.tail
  cases hnamed : namedEscape? b with
  | some out =>
    obtain ⟨hb, hout⟩ := lt_of_namedEscape? hnamed
    rw [escape, hnamed]
    exact hleft.append ((IsValid.ascii hout).append (hrest hb))
  | none =>
    rw [escape, hnamed]
    dsimp only
    split
    · next hoctal =>
      have hdigits : (b :: digitsAhead 8 bs).all (isDigitByte 8) := by
        rw [List.all_cons, hoctal, all_digitsAhead]
        rfl
      have hvalue := hascii.first (isEscape_octal hoctal bs)
        (by rw [escape_octal hoctal, digitsAhead_append_drop]) (.octal hdigits)
      have hbs := isValid_drop_digitsAhead 8 (hrest (lt_of_isDigitByte hoctal))
      exact hleft.append ((IsValid.ascii hvalue).append hbs)
    split
    · next hhex =>
      simp only [Bool.and_eq_true, beq_iff_eq, Bool.not_eq_true', List.isEmpty_eq_false_iff] at hhex
      obtain ⟨rfl, hahead⟩ := hhex
      have hvalue := hascii.first (isEscape_hex hahead)
        (by rw [escape_hex hahead, digitsAhead_append_drop]) (.hex (all_digitsAhead 16 bs))
      have hbs := isValid_drop_digitsAhead 16 (hrest (by decide))
      exact hleft.append ((IsValid.ascii hvalue).append hbs)
    split
    · next hu =>
      split
      · next c tail hbraced =>
        obtain ⟨text, -, rfl⟩ := bracedCodePoint?_isSome_iff.1 ⟨c, hbraced⟩
        -- What follows the code point comes after the closing brace.
        have hbraced : IsValid ((b :: byte '\x7b' :: text) ++ byte '\x7d' :: tail) := hright
        exact hleft.append ((IsValid.char c).append (hbraced.cut (by decide)).2)
      · exact h
    · exact h

/-! ## A whole literal -/

/-- Whatever has been decoded before: if it is whole characters together with what is left, then
    it is so together with what that is decoded to. -/
theorem unescapeDouble?_isValid {left bs out : List UInt8} (h : IsValid (left ++ bs))
    (hascii : SpellsAscii bs) (hout : unescapeDouble? bs = some out) : IsValid (left ++ out) := by
  revert left out
  fun_induction unescapeDouble? bs with
  | case1 =>
    intro left out h hout
    cases hout
    exact h
  | case2 b rest hopens =>
    intro left out h hout
    cases hout
  | case3 b hb =>
    intro left out h hout
    cases hout
    exact h
  | case4 b hb e tail hopens next ih =>
    intro left out h hout
    obtain ⟨out', hout', rfl⟩ := Option.map_eq_some_iff.1 hout
    obtain rfl := eq_of_beq hb
    have hstep := escape_isValid h hascii
    rw [← List.append_assoc] at hstep ⊢
    exact ih hascii.backslash hstep hout'
  | case5 b rest hopens hb ih =>
    intro left out h hout
    obtain ⟨out', hout', rfl⟩ := Option.map_eq_some_iff.1 hout
    have hstep : IsValid ((left ++ [b]) ++ rest) := by simpa using h
    simpa using ih (hascii.plain (by simpa using hb)) hstep hout'

/-- The bytes of a literal that interpolates no variable, and in which the escape sequences give
    no byte beyond ASCII by its number, are the bytes of its value: they are valid, each part of
    them is a character, and nothing is replaced. -/
theorem doubleQuoted?_isValid (raw : String) {bytes : List UInt8}
    (hascii : SpellsAscii (Utf8.encode (body raw).toList))
    (h : unescapeDouble? (Utf8.encode (body raw).toList) = some bytes) :
    ∃ value, doubleQuoted? raw = some value ∧ bytes = Utf8.encode value.toList ∧
      Utf8.decode? bytes = some value ∧ none ∉ Utf8.parts bytes := by
  have hbody : IsValid ([] ++ Utf8.encode (body raw).toList) := ⟨_, rfl⟩
  obtain ⟨cs, rfl⟩ := unescapeDouble?_isValid hbody hascii h
  refine ⟨String.ofList cs, ?_, ?_, Utf8.decode?_encode cs, ?_⟩
  · rw [doubleQuoted?, h, Option.map_some, Utf8.decodeLossy_encode]
  · rw [String.toList_ofList]
  · simp [Utf8.parts_encode]

/-- A character after a backslash, a byte by its number, and a code point that is none. -/
def keptText : List Char := ['\\', 'é', '\\', 'x', '4', '1', '\\', 'u', '\x7b', 'é']

/-- No run of digits in it has a value beyond ASCII, wherever it begins. -/
theorem keptText_spellsAscii : SpellsAscii (Utf8.encode keptText) := by
  intro seq rest value hfree _ hvalue
  have hcheck : ∀ left ∈ (Utf8.encode keptText).tails, ∀ seq ∈ left.inits,
      (seq.tail.all (isDigitByte 8) → UInt8.ofNat (valueOfBytes 8 seq.tail) < 0x80) ∧
      ((seq.drop 2).all (isDigitByte 16) →
        UInt8.ofNat (valueOfBytes 16 (seq.drop 2)) < 0x80) := by
    decide +kernel
  have hseq := hcheck _ ((List.mem_tails _ _).2 hfree.suffix) seq
    ((List.mem_inits _ _).2 (List.prefix_append seq rest))
  cases hvalue with
  | octal hdigits => exact hseq.1 hdigits
  | hex hdigits => exact hseq.2 hdigits

theorem doubleQuoted?_isValid_keptText :
    let raw := String.ofList ('"' :: keptText ++ ['"'])
    ∃ bytes, SpellsAscii (Utf8.encode (body raw).toList) ∧
      unescapeDouble? (Utf8.encode (body raw).toList) = some bytes ∧
      ∃ value, doubleQuoted? raw = some value ∧ bytes = Utf8.encode value.toList ∧
        Utf8.decode? bytes = some value ∧ none ∉ Utf8.parts bytes := by
  intro raw
  have hbody : Utf8.encode (body raw).toList = Utf8.encode keptText := by
    rw [body_quoted rfl, String.toList_ofList]
  have hascii := keptText_spellsAscii
  rw [← hbody] at hascii
  have hsome : (unescapeDouble? (Utf8.encode (body raw).toList)).isSome := by
    rw [hbody]
    decide +kernel
  obtain ⟨bytes, hbytes⟩ := Option.isSome_iff_exists.1 hsome
  exact ⟨bytes, hascii, hbytes, doubleQuoted?_isValid raw hascii hbytes⟩

end PhpScript.Literal
