import Mathlib.Data.Nat.Digits.Defs
import PhpScript.Proofs.Literal.Decoding
import PhpScript.Proofs.Token.LongestMatch

/-!
# The values of numeric tokens

What the scanner takes for an integer announces a radix (`Literal.Announces`) and spells a
number in it (`Literal.Spells`), unless it is an octal number with a digit that is none
(`Literal.IsMalformedOctal`).

* `Literal.isDecoded_of_mem_pattern`: the decoder gives that number, as a float if it is too
  large, and refuses exactly the malformed octal numbers;
* `Literal.isSome_float?`: every text of a float has a value.

Both are told by the languages of the scanner's rules, with the underscores left out at
last, so a text may have them wherever the rules allow it.
-/

namespace PhpScript

namespace Literal

/-! ## What a literal says -/

/-- The characters of an integer announce the radix of the digits at their end. -/
inductive Announces : (chars : List Char) → (radix : Nat) → (digits : List Char) → Prop
  | hex {letter : Char} {digits : List Char} (h : letter = 'x' ∨ letter = 'X') :
    Announces ('0' :: letter :: digits) 16 digits
  | binary {letter : Char} {digits : List Char} (h : letter = 'b' ∨ letter = 'B') :
    Announces ('0' :: letter :: digits) 2 digits
  | octal {letter : Char} {digits : List Char} (h : letter = 'o' ∨ letter = 'O') :
    Announces ('0' :: letter :: digits) 8 digits
  /-- A zero before more digits. -/
  | zero {d : Char} {digits : List Char} (h : isDecimal d) :
    Announces ('0' :: d :: digits) 8 (d :: digits)
  | decimal {digits : List Char} (h : digits.head? = some '0' → digits = ['0']) :
    Announces digits 10 digits

/-- The digits spell the number in the radix, the highest digit first. -/
def Spells (radix : Nat) (digits : List Char) (n : Nat) : Prop :=
  ∃ values, List.Forall₂ (fun c d => d < radix ∧ c.toLower = d.digitChar) digits values ∧
    n = Nat.ofDigits radix values.reverse

/-- A zero before more digits, of which one is not octal. -/
def IsMalformedOctal (chars : List Char) : Prop :=
  ∃ digits, chars = '0' :: digits ∧ digits.all isDecimal ∧ ('8' ∈ digits ∨ '9' ∈ digits)

/-- The text of an integer is decoded to the number that it spells, as a float if a signed
    64-bit word does not hold it; or it is refused as a malformed octal number. -/
structure IsDecoded (text : String) : Prop where
  refused : integer? text = none ↔ IsMalformedOctal (withoutUnderscores text)
  value : ¬IsMalformedOctal (withoutUnderscores text) →
    ∃ radix digits n, Announces (withoutUnderscores text) radix digits ∧ digits ≠ [] ∧
      Spells radix digits n ∧
      (n ≤ 2 ^ 63 - 1 → integer? text = some (.integer n)) ∧
      (2 ^ 63 - 1 < n → ∃ x, integer? text = some (.float x) ∧
        (n < 2 ^ 128 → x = .ofNat n))

/-! ## Digits -/

/-- What holds of every ASCII character holds of a character that is one. -/
theorem of_ascii {P : Char → Prop} (h : ∀ n < 128, P (Char.ofNat n)) {c : Char}
    (hc : c.toNat < 128) : P c :=
  c.ofNat_toNat ▸ h c.toNat hc

theorem toNat_lt_of_le {c d : Char} (h : c ≤ d) (hd : d.toNat < 128) : c.toNat < 128 :=
  Nat.lt_of_le_of_lt (UInt32.le_iff_toNat_le.1 h) hd

theorem ascii_of_isDigitOf {radix : Nat} {c : Char} (h : isDigitOf radix c) : c.toNat < 128 := by
  unfold isDigitOf digitValue? at h
  split at h
  · next hd =>
    split at hd
    · next hc => exact toNat_lt_of_le hc.2 (by decide)
    split at hd
    · next hc => exact toNat_lt_of_le hc.2 (by decide)
    split at hd
    · next hc => exact toNat_lt_of_le hc.2 (by decide)
    · cases hd
  · cases h

theorem ascii_of_isHex {c : Char} (h : isHex c) : c.toNat < 128 := by
  simp only [isHex, isDecimal, Bool.or_eq_true, Bool.and_eq_true, decide_eq_true_eq] at h
  rcases h with (h | h) | h <;> exact toNat_lt_of_le h.2 (by decide)

theorem isHex_of_isDecimal {c : Char} (h : isDecimal c) : isHex c := by simp [isHex, h]

theorem isDigitOf_of_isHex {c : Char} (h : isHex c) : isDigitOf 16 c :=
  of_ascii (P := fun c => isHex c → isDigitOf 16 c) (by decide) (ascii_of_isHex h) h

theorem isDigitOf_of_isDecimal {c : Char} (h : isDecimal c) : isDigitOf 10 c :=
  of_ascii (P := fun c => isDecimal c → isDigitOf 10 c) (by decide)
    (ascii_of_isHex (isHex_of_isDecimal h)) h

theorem isDigitOf_of_isOctal {c : Char} (h : isOctal c) : isDigitOf 8 c := by
  have hc : c.toNat < 128 := by
    simp only [isOctal, Bool.and_eq_true, decide_eq_true_eq] at h
    exact toNat_lt_of_le h.2 (by decide)
  exact of_ascii (P := fun c => isOctal c → isDigitOf 8 c) (by decide) hc h

theorem isDigitOf_of_isBinary {c : Char} (h : isBinary c) : isDigitOf 2 c := by
  simp only [isBinary, Bool.or_eq_true, beq_iff_eq] at h
  rcases h with rfl | rfl <;> rfl

/-- Of the decimal digits only two are not octal. -/
theorem isDigitOf_eight_iff {c : Char} (h : isDecimal c) :
    isDigitOf 8 c ↔ ¬(c = '8' ∨ c = '9') :=
  of_ascii (P := fun c => isDecimal c → (isDigitOf 8 c ↔ ¬(c = '8' ∨ c = '9'))) (by decide)
    (ascii_of_isHex (isHex_of_isDecimal h)) h

theorem digitValue?_of_isDigitOf {radix : Nat} {c : Char} (h : isDigitOf radix c)
    (hradix : radix ≤ 16) : ∃ d < radix, digitValue? c = some d ∧ c.toLower = d.digitChar := by
  obtain ⟨d, hd, hlt⟩ : ∃ d, digitValue? c = some d ∧ d < radix := by
    unfold isDigitOf at h
    split at h
    · next d hd => exact ⟨d, hd, of_decide_eq_true h⟩
    · cases h
  have hall : ∀ n < 128, ∀ d < 16, digitValue? (Char.ofNat n) = some d →
      (Char.ofNat n).toLower = d.digitChar := by decide +kernel
  refine ⟨d, hlt, hd, ?_⟩
  exact of_ascii (P := fun c => ∀ d < 16, digitValue? c = some d → c.toLower = d.digitChar) hall
    (ascii_of_isDigitOf h) d (Nat.lt_of_lt_of_le hlt hradix) hd

/-- Digits spell the value that is computed for them. -/
theorem spells_positionalValue {radix : Nat} {digits : List Char}
    (h : ∀ c ∈ digits, isDigitOf radix c) (hradix : radix ≤ 16) :
    Spells radix digits (positionalValue radix digits) := by
  -- The value is computed from the highest digit on, so the last digit is told apart.
  induction digits using List.reverseRecOn with
  | nil => exact ⟨[], .nil, rfl⟩
  | append_singleton digits c ih =>
    rw [List.forall_mem_append, List.forall_mem_singleton] at h
    obtain ⟨values, hvalues, hvalue⟩ := ih h.1
    obtain ⟨d, hlt, hd, hchar⟩ := digitValue?_of_isDigitOf h.2 hradix
    refine ⟨values ++ [d], List.rel_append hvalues (.cons ⟨hlt, hchar⟩ .nil), ?_⟩
    rw [positionalValue, List.foldl_append, ← positionalValue, List.reverse_append,
      List.reverse_singleton, List.singleton_append, Nat.ofDigits_cons, ← hvalue]
    simp [hd, Nat.add_comm, Nat.mul_comm]

/-! ## Integers -/

theorem radixAndDigits_of_announces {chars digits : List Char} {radix : Nat}
    (h : Announces chars radix digits) : radixAndDigits chars = (radix, digits) := by
  cases h with
  | hex h | binary h | octal h => rcases h with rfl | rfl <;> rfl
  | zero h =>
    -- None of the six letters is a digit.
    rw [radixAndDigits]
    all_goals
      rintro rfl
      cases h
  | decimal h =>
    unfold radixAndDigits
    split
    all_goals first
      | next => simp at h
      | rfl

theorem isMalformedOctal_zero_iff {digits : List Char} (h : digits.all isDecimal) :
    IsMalformedOctal ('0' :: digits) ↔ ¬digits.all (isDigitOf 8) := by
  have hiff : (∀ c ∈ digits, isDigitOf 8 c) ↔ ¬('8' ∈ digits ∨ '9' ∈ digits) := by
    rw [List.all_eq_true] at h
    constructor
    · rintro hall (hmem | hmem) <;> cases hall _ hmem
    · intro hnone c hc
      refine (isDigitOf_eight_iff (h c hc)).2 ?_
      rintro (rfl | rfl)
      · exact hnone (.inl hc)
      · exact hnone (.inr hc)
  rw [List.all_eq_true, hiff, not_not]
  constructor
  · rintro ⟨_, heq, -, hmem⟩
    cases heq
    exact hmem
  · exact fun hmem => ⟨digits, rfl, h, hmem⟩

theorem integer?_of_announces {text : String} {radix : Nat} {digits : List Char}
    (h : Announces (withoutUnderscores text) radix digits) (hne : digits ≠ []) :
    (integer? text = none ↔ ¬digits.all (isDigitOf radix)) ∧
      (digits.all (isDigitOf radix) → ∀ n, n = positionalValue radix digits →
        (n ≤ maxInteger → integer? text = some (.integer n)) ∧
        (maxInteger < n → ∃ x, integer? text = some (.float x) ∧
          (n < exactBound → x = .ofNat n))) := by
  simp only [integer?, radixAndDigits_of_announces h]
  by_cases hall : digits.all (isDigitOf radix)
  · rw [if_neg (by simp [hne, hall])]
    refine ⟨iff_of_false ?_ (by simp [hall]), fun _ n hn => ?_⟩
    · split
      · simp
      split
      · simp
      · simp
    · rw [← hn]
      refine ⟨fun hle => if_pos hle, fun hlt => ?_⟩
      rw [if_neg (Nat.not_le_of_lt hlt)]
      by_cases hexact : n < exactBound
      · exact ⟨_, if_pos hexact, fun _ => rfl⟩
      · exact ⟨_, if_neg hexact, fun h => absurd h hexact⟩
  · rw [if_pos (by simp [hall])]
    exact ⟨iff_of_true rfl hall, fun h => absurd h hall⟩

/-- What decides over the value of a literal, told of the characters that count. -/
theorem isDecoded_of_announces {text : String} {radix : Nat} {digits : List Char}
    (h : Announces (withoutUnderscores text) radix digits) (hradix : radix ≤ 16)
    (hne : digits ≠ [])
    (hrefused : ¬digits.all (isDigitOf radix) ↔ IsMalformedOctal (withoutUnderscores text)) :
    IsDecoded text := by
  obtain ⟨hnone, hvalue⟩ := integer?_of_announces h hne
  refine ⟨hnone.trans hrefused, fun hok => ?_⟩
  rw [← hrefused, not_not] at hok
  exact ⟨radix, digits, _, h, hne, spells_positionalValue (List.all_eq_true.1 hok) hradix,
    hvalue hok _ rfl⟩

/-! ## Texts of the rules -/

/-- Digits and underscores are digits, once the underscores are left out. -/
theorem all_filter_of_orUnderscore {p : Char → Bool} {w : List Char}
    (h : w.all (orUnderscore p)) : (w.filter (· != '_')).all p := by
  rw [List.all_eq_true] at h ⊢
  intro c hc
  obtain ⟨hmem, hne⟩ := List.mem_filter.1 hc
  have hclass := h c hmem
  rw [orUnderscore, Bool.or_eq_true, beq_iff_eq] at hclass
  exact hclass.resolve_right (bne_iff_ne.1 hne)

theorem filter_startThenMany {p : Char → Bool} (hp : p '_' = false) {w : List Char}
    (hw : w ∈ one p * many (orUnderscore p)) :
    w.filter (· != '_') ≠ [] ∧ (w.filter (· != '_')).all p := by
  obtain ⟨_, ⟨c, hc, rfl⟩, rest, hrest, rfl⟩ := Language.mem_mul.1 hw
  have hkept : c ≠ '_' := by
    rintro rfl
    exact Bool.false_ne_true (hp.symm.trans hc)
  have hfilter : ([c] ++ rest).filter (· != '_') = c :: rest.filter (· != '_') := by simp [hkept]
  rw [hfilter, List.all_cons, hc, Bool.true_and]
  exact ⟨List.cons_ne_nil _ _, all_filter_of_orUnderscore hrest⟩

theorem isDecoded_of_digits {text : String} (h : text.toList ∈ digits) : IsDecoded text := by
  obtain ⟨hne, hall⟩ : withoutUnderscores text ≠ [] ∧ (withoutUnderscores text).all isDecimal :=
    filter_startThenMany rfl h
  by_cases hzero : ∃ d rest, withoutUnderscores text = '0' :: d :: rest
  · obtain ⟨d, rest, hchars⟩ := hzero
    have hrest : (d :: rest).all isDecimal := by
      rw [hchars, List.all_cons, Bool.and_eq_true] at hall
      exact hall.2
    have hd : isDecimal d := List.all_eq_true.1 hrest d List.mem_cons_self
    have hannounces : Announces (withoutUnderscores text) 8 (d :: rest) := hchars ▸ .zero hd
    refine isDecoded_of_announces hannounces (by decide) (List.cons_ne_nil _ _) ?_
    rw [hchars, isMalformedOctal_zero_iff hrest]
  · have hhead : ∀ {rest}, withoutUnderscores text = '0' :: rest → rest = [] := by
      rintro (_ | ⟨d, rest⟩) hchars
      · rfl
      · exact absurd ⟨d, rest, hchars⟩ hzero
    have hannounces : Announces (withoutUnderscores text) 10 (withoutUnderscores text) := by
      refine .decimal fun h => ?_
      obtain ⟨rest, hchars⟩ := List.head?_eq_some_iff.1 h
      rw [hchars, hhead hchars]
    refine isDecoded_of_announces hannounces (by decide) hne (iff_of_false ?_ ?_)
    · rw [not_not, List.all_eq_true]
      exact fun c hc => isDigitOf_of_isDecimal (List.all_eq_true.1 hall c hc)
    · rintro ⟨rest, hchars, -, hmem⟩
      rw [hhead hchars] at hmem
      simp at hmem

/-- Digits of a class after a zero and one of two letters. -/
theorem isDecoded_of_prefixed {text : String} {lower upper : Char} {p : Char → Bool} {radix : Nat}
    (hp : p '_' = false) (hradix : radix ≤ 16)
    (hmarks : [lower, upper].all fun letter => letter != '_' && !isDecimal letter)
    (hdigit : ∀ c, p c → isDigitOf radix c)
    (hannounces : ∀ letter digits, letter = lower ∨ letter = upper →
      Announces ('0' :: letter :: digits) radix digits)
    (h : text.toList ∈ prefixed lower upper p) : IsDecoded text := by
  obtain ⟨_, ⟨zero, hzero, rfl⟩, rest, hrest, hcut⟩ := Language.mem_mul.1 h
  obtain ⟨_, ⟨letter, hletter, rfl⟩, body, hbody, rfl⟩ := Language.mem_mul.1 hrest
  simp only [beq_iff_eq, Bool.or_eq_true] at hzero hletter
  obtain ⟨hkept, hdecimal⟩ : letter ≠ '_' ∧ isDecimal letter = false := by
    simpa using List.all_eq_true.1 hmarks letter (by simpa using hletter)
  obtain ⟨hne, hall⟩ := filter_startThenMany hp hbody
  have hchars : withoutUnderscores text = '0' :: letter :: body.filter (· != '_') := by
    simp [withoutUnderscores, ← hcut, hzero, hkept]
  have hvalid : (body.filter (· != '_')).all (isDigitOf radix) :=
    List.all_eq_true.2 fun c hc => hdigit c (List.all_eq_true.1 hall c hc)
  refine isDecoded_of_announces (hchars ▸ hannounces _ _ hletter) hradix hne
    (iff_of_false (not_not.2 hvalid) ?_)
  -- The letter is no digit, so the zero does not announce octal.
  rw [hchars]
  rintro ⟨_, heq, hdigits, -⟩
  cases heq
  rw [List.all_cons, hdecimal, Bool.false_and] at hdigits
  cases hdigits

/-- The texts of integers are decoded. -/
theorem isDecoded_of_mem_pattern {text : String}
    (h : text.toList ∈ TokenKind.integer.pattern) : IsDecoded text := by
  obtain ⟨r, hkind, hw⟩ := h
  cases r with
  | decimalInteger => exact isDecoded_of_digits hw
  | hexInteger =>
    exact isDecoded_of_prefixed rfl (by decide) (by decide) (fun _ => isDigitOf_of_isHex)
      (fun _ _ => .hex) hw
  | octalInteger =>
    exact isDecoded_of_prefixed rfl (by decide) (by decide) (fun _ => isDigitOf_of_isOctal)
      (fun _ _ => .octal) hw
  | binaryInteger =>
    exact isDecoded_of_prefixed rfl (by decide) (by decide) (fun _ => isDigitOf_of_isBinary)
      (fun _ _ => .binary) hw
  | _ => cases hkind

/-- A decimal of more than sixty-four bits, octal digits after underscores, and a digit that
    is not octal. -/
example : integer? "1_8446744073709551616" = some (.float (.ofNat (2 ^ 64))) ∧
    integer? "0_1_7" = some (.integer 15) ∧ integer? "0_18" = none := by decide +kernel

/-! ## Floats -/

theorem isDigit_of_isDecimal {c : Char} (h : isDecimal c) : c.isDigit :=
  of_ascii (P := fun c => isDecimal c → c.isDigit) (by decide)
    (ascii_of_isHex (isHex_of_isDecimal h)) h

theorem all_isDigit {w : List Char} (h : w.all isDecimal) : ∀ c ∈ w, c.isDigit :=
  fun c hc => isDigit_of_isDecimal (List.all_eq_true.1 h c hc)

/-- The parts of an exponent. -/
theorem mem_exponent {w : List Char} (hw : w ∈ exponent) :
    ∃ e sign digits, w = e :: (sign ++ digits) ∧ (e = 'e' ∨ e = 'E') ∧
      (sign = [] ∨ sign = ['+'] ∨ sign = ['-']) ∧ digits ≠ [] ∧ digits.all isDecimal := by
  obtain ⟨_, ⟨e, he, rfl⟩, rest, hrest, rfl⟩ := Language.mem_mul.1 hw
  obtain ⟨sign, hsign, body, hbody, rfl⟩ := Language.mem_mul.1 hrest
  obtain ⟨_, ⟨d, hd, rfl⟩, ds, hds, rfl⟩ := Language.mem_mul.1 hbody
  refine ⟨e, sign, d :: ds, rfl, by simpa [isExponentMark] using he, ?_, by simp, ?_⟩
  · rcases hsign with rfl | ⟨c, hc, rfl⟩
    · exact .inl rfl
    · exact .inr (by simpa [isSign] using hc)
  · rw [List.all_cons, hd, Bool.true_and]
    exact hds

theorem splitSign_cons {c : Char} (h : isSign c = false) (cs : List Char) :
    Double.splitSign (c :: cs) = (false, c :: cs) := by
  rw [Double.splitSign]
  all_goals
    rintro _ ⟨⟩
    cases h

theorem readExponent?_isSome {w : List Char} (hw : w ∈ 1 + exponent) :
    (Double.readExponent? w).isSome := by
  rcases hw with rfl | hw
  · rfl
  obtain ⟨e, sign, digits, rfl, he, hsign, hne, hall⟩ := mem_exponent hw
  obtain ⟨d, ds, rfl⟩ := List.exists_cons_of_ne_nil hne
  have hd : isDecimal d := List.all_eq_true.1 hall d List.mem_cons_self
  obtain ⟨negative, hsplit⟩ :
      ∃ negative, Double.splitSign (sign ++ d :: ds) = (negative, d :: ds) := by
    rcases hsign with rfl | rfl | rfl
    · exact ⟨_, splitSign_cons (isSign_of_isDecimal hd) ds⟩
    · exact ⟨false, rfl⟩
    · exact ⟨true, rfl⟩
  have hmark : e.toLower = 'e' := by rcases he with rfl | rfl <;> rfl
  have hdigits : (d :: ds).all Char.isDigit := List.all_eq_true.2 (all_isDigit hall)
  simp only [Double.readExponent?, hsplit, hmark, hdigits]
  rfl

/-- An exponent holds neither a point nor an underscore, and does not begin with a digit. -/
theorem exponent_begins {w : List Char} (hw : w ∈ 1 + exponent) :
    (∀ c ∈ w.head?, c.isDigit = false) ∧ ∀ c ∈ w, c ≠ '.' ∧ c ≠ '_' := by
  rcases hw with rfl | hw
  · exact ⟨by simp, by simp⟩
  obtain ⟨e, sign, digits, rfl, he, hsign, hne, hall⟩ := mem_exponent hw
  have hdigits : ∀ c ∈ digits, c ≠ '.' ∧ c ≠ '_' := by
    intro c hc
    constructor <;> rintro rfl <;> cases List.all_eq_true.1 hall _ hc
  constructor
  · rcases he with rfl | rfl <;> simp
  · rw [List.forall_mem_cons, List.forall_mem_append]
    refine ⟨by rcases he with rfl | rfl <;> decide, ?_, hdigits⟩
    rcases hsign with rfl | rfl | rfl <;> simp

theorem takeWhile_isDigit_append {w mark : List Char} (hw : w.all isDecimal)
    (hmark : ∀ c ∈ mark.head?, c.isDigit = false) :
    (w ++ mark).takeWhile Char.isDigit = w ∧ (w ++ mark).dropWhile Char.isDigit = mark := by
  rw [List.takeWhile_append_of_pos (all_isDigit hw), List.dropWhile_append_of_pos (all_isDigit hw)]
  cases mark with
  | nil => simp
  | cons c cs => simp [hmark c rfl]

/-- The text of a float without its underscores: digits, maybe a point and more digits, and
    maybe an exponent. -/
inductive IsFloatText : List Char → Prop
  | whole {digits mark : List Char} (hne : digits ≠ []) (hdigits : digits.all isDecimal)
    (hmark : mark ∈ 1 + exponent) : IsFloatText (digits ++ mark)
  | point {digits fraction mark : List Char} (hne : digits ++ fraction ≠ [])
    (hdigits : digits.all isDecimal) (hfraction : fraction.all isDecimal)
    (hmark : mark ∈ 1 + exponent) : IsFloatText (digits ++ '.' :: (fraction ++ mark))

namespace IsFloatText

variable {w : List Char} (h : IsFloatText w)

include h

theorem readDigits?_isSome (negative : Bool) : (Double.readDigits? negative w).isSome := by
  cases h with
  | @whole digits mark hne hdigits hmark =>
    obtain ⟨htake, hdrop⟩ := takeWhile_isDigit_append hdigits (exponent_begins hmark).1
    have hpoint : ∀ ds, mark ≠ '.' :: ds := by
      rintro ds rfl
      exact ((exponent_begins hmark).2 _ List.mem_cons_self).1 rfl
    simp only [Double.readDigits?, htake, hdrop]
    rw [if_neg (by simp [hne]), Option.isSome_map]
    exact readExponent?_isSome hmark
  | @point digits fraction mark hne hdigits hfraction hmark =>
    have hpoint : ∀ c ∈ ('.' :: (fraction ++ mark)).head?, c.isDigit = false := by simp
    obtain ⟨htake, hdrop⟩ := takeWhile_isDigit_append hdigits hpoint
    obtain ⟨htake', hdrop'⟩ := takeWhile_isDigit_append hfraction (exponent_begins hmark).1
    have hsome : ¬(digits.isEmpty && fraction.isEmpty) := by simpa using hne
    simp only [Double.readDigits?, htake, hdrop, htake', hdrop', if_neg hsome, Option.isSome_map]
    exact readExponent?_isSome hmark

theorem head : ∃ c cs, w = c :: cs ∧ (isDecimal c ∨ c = '.') := by
  cases h with
  | @whole digits mark hne hdigits hmark =>
    obtain ⟨d, ds, rfl⟩ := List.exists_cons_of_ne_nil hne
    exact ⟨d, _, rfl, .inl (List.all_eq_true.1 hdigits d List.mem_cons_self)⟩
  | @point digits fraction mark hne hdigits hfraction hmark =>
    cases digits with
    | nil => exact ⟨'.', _, rfl, .inr rfl⟩
    | cons d ds => exact ⟨d, _, rfl, .inl (List.all_eq_true.1 hdigits d List.mem_cons_self)⟩

/-- A text that begins with a digit or a point has no sign, and is no word. -/
theorem ofText?_isSome : (Double.ofText? w).isSome := by
  obtain ⟨c, cs, rfl, hc⟩ := h.head
  have hfirst : isSign c = false ∧ c.toLower ≠ 'i' ∧ c.toLower ≠ 'n' := by
    rcases hc with hc | rfl
    · exact of_ascii
        (P := fun c => isDecimal c → isSign c = false ∧ c.toLower ≠ 'i' ∧ c.toLower ≠ 'n')
        (by decide) (ascii_of_isHex (isHex_of_isDecimal hc)) hc
    · decide
  have hword (word : String) (d : Char) (hhead : word.toList.head? = some d)
      (hd : c.toLower ≠ d) : (String.ofList ((c :: cs).map Char.toLower) == word) = false := by
    rw [beq_eq_false_iff_ne]
    rintro rfl
    rw [String.toList_ofList] at hhead
    exact hd (Option.some.inj hhead)
  have hreads : Double.ofText? (c :: cs) = Double.readDigits? false (c :: cs) := by
    simp only [Double.ofText?, splitSign_cons hfirst.1,
      hword "inf" 'i' rfl hfirst.2.1,
      hword "infinity" 'i' rfl hfirst.2.1,
      hword "nan" 'n' rfl hfirst.2.2, Bool.or_self, Bool.false_eq_true, if_false]
  rw [hreads]
  exact h.readDigits?_isSome false

/-- A point at the end may be left out. -/
theorem ofText?_dropPoint_isSome :
    (Double.ofText? (if w.getLast? == some '.' then w.dropLast else w)).isSome := by
  have hplain {digits mark : List Char} (hdigits : digits.all isDecimal)
      (hmark : mark ∈ 1 + exponent) : (digits ++ mark).getLast? ≠ some '.' := by
    intro hlast
    rcases List.mem_append.1 (List.mem_of_getLast? hlast) with hmem | hmem
    · cases List.all_eq_true.1 hdigits _ hmem
    · exact ((exponent_begins hmark).2 _ hmem).1 rfl
  split
  · next hlast =>
    rw [beq_iff_eq] at hlast
    cases h with
    | @whole digits mark hne hdigits hmark => exact absurd hlast (hplain hdigits hmark)
    | @point digits fraction mark hne hdigits hfraction hmark =>
      -- The point is the last character only if nothing comes after it.
      have hlast' : ('.' :: (fraction ++ mark)).getLast? = some '.' := by
        rwa [List.getLast?_append_of_ne_nil _ (List.cons_ne_nil _ _)] at hlast
      have hnone : fraction ++ mark = [] := by
        by_contra hsome
        rw [List.getLast?_cons_of_ne_nil hsome] at hlast'
        exact hplain hfraction hmark hlast'
      obtain ⟨rfl, rfl⟩ := List.append_eq_nil_iff.1 hnone
      have hwhole : IsFloatText (digits ++ []) := .whole (by simpa using hne) hdigits (.inl rfl)
      simpa using hwhole.ofText?_isSome
  · exact h.ofText?_isSome

end IsFloatText

/-- The texts of floats have a value. -/
theorem float?_isSome {text : String} (h : text.toList ∈ TokenKind.float.pattern) :
    (float? text).isSome := by
  refine IsFloatText.ofText?_dropPoint_isSome ?_
  obtain ⟨r, hkind, hw⟩ := h
  have hmark {mark : List Char} (hmark : mark ∈ 1 + exponent) : mark.filter (· != '_') = mark :=
    List.filter_eq_self.2 fun c hc => bne_iff_ne.2 ((exponent_begins hmark).2 c hc).2
  cases r with
  | pointFloat =>
    obtain ⟨body, hbody, mark, hexp, hcut⟩ := Language.mem_mul.1 hw
    obtain ⟨whole, hwhole, rest, hrest, rfl⟩ := Language.mem_mul.1 hbody
    obtain ⟨_, ⟨point, hpoint, rfl⟩, fraction, hfraction, rfl⟩ := Language.mem_mul.1 hrest
    obtain ⟨hne, hall⟩ := filter_startThenMany rfl hwhole
    have hchars : withoutUnderscores text = whole.filter (· != '_') ++
        '.' :: (fraction.filter (· != '_') ++ mark) := by
      simp [withoutUnderscores, ← hcut, eq_of_beq hpoint, hmark hexp]
    rw [hchars]
    exact .point (by simp [hne]) hall (all_filter_of_orUnderscore hfraction) hexp
  | leadingPointFloat =>
    obtain ⟨body, hbody, mark, hexp, hcut⟩ := Language.mem_mul.1 hw
    obtain ⟨_, ⟨point, hpoint, rfl⟩, fraction, hfraction, rfl⟩ := Language.mem_mul.1 hbody
    obtain ⟨hne, hall⟩ := filter_startThenMany rfl hfraction
    have hchars : withoutUnderscores text =
        [] ++ '.' :: (fraction.filter (· != '_') ++ mark) := by
      simp [withoutUnderscores, ← hcut, eq_of_beq hpoint, hmark hexp]
    rw [hchars]
    exact .point (by simpa using hne) rfl hall hexp
  | exponentFloat =>
    obtain ⟨whole, hwhole, mark, hexp, hcut⟩ := Language.mem_mul.1 hw
    obtain ⟨hne, hall⟩ := filter_startThenMany rfl hwhole
    have hchars : withoutUnderscores text = whole.filter (· != '_') ++ mark := by
      simp [withoutUnderscores, ← hcut, hmark (.inr hexp)]
    rw [hchars]
    exact .whole hne hall (.inr hexp)
  | _ => cases hkind

end Literal

end PhpScript
