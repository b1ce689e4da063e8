import Mathlib.Computability.Language
import PhpScript.Proofs.Token.Lexing

/-!
# The languages of the rules

Every lexical rule stands for a language, `Rule.pattern`: the texts of its
class. `Rule.reach?` is the greedy matcher for it. What makes greediness right
is said once, in `Finds`: a matcher finds a language when it stops at the end of
a word of the language, and never before the end of another one. It goes through
sequences whose first part knows where to stop before the second.

* `Rule.reach?_finds`: every rule finds the language of its class;
* `Rule.longest?_eq_some_iff`: the longest match is what a text offers to the
  rules altogether, the earlier rule winning a tie.
-/

namespace PhpScript

/-! ## Languages -/

/-- One character of a class. -/
def one (p : Char → Bool) : Language Char := {w | ∃ c, p c ∧ w = [c]}

/-- Any number of characters of a class. -/
def many (p : Char → Bool) : Language Char := {w | w.all p}

theorem mem_many {p : Char → Bool} {w : List Char} : w ∈ many p ↔ w.all p := Iff.rfl

theorem cons_mem_one_mul {p : Char → Bool} {L : Language Char} {c : Char} {w : List Char} :
    c :: w ∈ one p * L ↔ p c ∧ w ∈ L := by
  rw [Language.mem_mul]
  constructor
  · rintro ⟨_, ⟨d, hd, rfl⟩, v, hv, hw⟩
    cases hw
    exact ⟨hd, hv⟩
  · rintro ⟨hc, hw⟩
    exact ⟨[c], ⟨c, hc, rfl⟩, w, hw, rfl⟩

/-! ## Matchers -/

/-- The matcher finds the language: it stops at the end of a word, and not before the end of
    any word that the text begins with. -/
structure Finds (f : List Char → Option Nat) (L : Language Char) : Prop where
  sound {cs : List Char} {n : Nat} : f cs = some n → ∃ w ∈ L, ∃ rest, cs = w ++ rest ∧ w.length = n
  complete {w : List Char} (hw : w ∈ L) (rest : List Char) :
    ∃ n, f (w ++ rest) = some n ∧ w.length ≤ n

/-- The matcher stops after a word of the first language before any of the second. -/
def StopsBefore (f : List Char → Option Nat) (L M : Language Char) : Prop :=
  ∀ u ∈ L, ∀ v ∈ M, ∀ rest, f (u ++ (v ++ rest)) = some u.length

/-- One matcher after the other. -/
def andThen? (f g : List Char → Option Nat) (cs : List Char) : Option Nat :=
  (f cs).bind fun n => (g (cs.drop n)).map (n + ·)

/-- One matcher, and the other after it if it can. -/
def andMaybe? (f g : List Char → Option Nat) (cs : List Char) : Option Nat :=
  (f cs).map fun n => n + (g (cs.drop n)).getD 0

namespace Finds

variable {f g : List Char → Option Nat} {L M : Language Char}

theorem congr (hf : Finds f L) (h : ∀ cs, g cs = f cs) : Finds g L := by
  rwa [show g = f from funext h]

theorem andThen? (hf : Finds f L) (hg : Finds g M) (hstop : StopsBefore f L M) :
    Finds (andThen? f g) (L * M) where
  sound {cs n} h := by
    obtain ⟨m, hm, h⟩ := Option.bind_eq_some_iff.1 h
    obtain ⟨k, hk, rfl⟩ := Option.map_eq_some_iff.1 h
    obtain ⟨u, hu, rest, rfl, rfl⟩ := hf.sound hm
    rw [List.drop_left] at hk
    obtain ⟨v, hv, rest, rfl, rfl⟩ := hg.sound hk
    exact ⟨u ++ v, Language.append_mem_mul hu hv, rest, by simp, by simp⟩
  complete {w} hw rest := by
    obtain ⟨u, hu, v, hv, rfl⟩ := Language.mem_mul.1 hw
    obtain ⟨n, hn, hle⟩ := hg.complete hv rest
    refine ⟨u.length + n, ?_, by simpa using hle⟩
    rw [PhpScript.andThen?, List.append_assoc, hstop u hu v hv, Option.bind_some, List.drop_left,
      hn, Option.map_some]

theorem andMaybe? (hf : Finds f L) (hg : Finds g M) (hstop : StopsBefore f L M) :
    Finds (andMaybe? f g) (L * (1 + M)) where
  sound {cs n} h := by
    obtain ⟨m, hm, rfl⟩ := Option.map_eq_some_iff.1 h
    obtain ⟨u, hu, rest, rfl, rfl⟩ := hf.sound hm
    rw [List.drop_left]
    cases hk : g rest with
    | none =>
      exact ⟨u, Language.mem_mul.2 ⟨u, hu, [], .inl rfl, by simp⟩, rest, rfl, by simp⟩
    | some k =>
      obtain ⟨v, hv, rest, rfl, rfl⟩ := hg.sound hk
      exact ⟨u ++ v, Language.append_mem_mul hu (.inr hv), rest, by simp, by simp⟩
  complete {w} hw rest := by
    obtain ⟨u, hu, v, hv, rfl⟩ := Language.mem_mul.1 hw
    rcases hv with rfl | hv
    · obtain ⟨n, hn, hle⟩ := hf.complete hu rest
      refine ⟨n + (g ((u ++ rest).drop n)).getD 0, ?_, ?_⟩
      · rw [PhpScript.andMaybe?, List.append_nil, hn, Option.map_some]
      · rw [List.append_nil]
        omega
    · obtain ⟨n, hn, hle⟩ := hg.complete hv rest
      refine ⟨u.length + n, ?_, by simpa using hle⟩
      rw [PhpScript.andMaybe?, List.append_assoc, hstop u hu v hv, Option.map_some, List.drop_left,
        hn, Option.getD_some]

end Finds

theorem StopsBefore.andThen? {f g : List Char → Option Nat} {L M N : Language Char}
    (hf : StopsBefore f L M) (hg : StopsBefore g M N) :
    StopsBefore (andThen? f g) (L * M) N := by
  intro w hw v hv rest
  obtain ⟨t, ht, u, hu, rfl⟩ := Language.mem_mul.1 hw
  rw [PhpScript.andThen?, List.append_assoc, hf t ht u hu, Option.bind_some, List.drop_left,
    hg u hu v hv, Option.map_some, List.length_append]

/-! ## Single matchers -/

/-- The matcher for one character of a class. -/
def char? (p : Char → Bool) : List Char → Option Nat
  | [] => none
  | c :: _ => if p c then some 1 else none

/-- The matcher for any number of characters of a class. -/
def run? (p : Char → Bool) (cs : List Char) : Option Nat := some (Rule.run p cs)

theorem andThen?_char?_cons (p : Char → Bool) (g : List Char → Option Nat) (c : Char)
    (cs : List Char) :
    andThen? (char? p) g (c :: cs) = if p c then (g cs).map (1 + ·) else none := by
  by_cases hc : p c <;> simp [andThen?, char?, hc]

theorem char?_finds (p : Char → Bool) : Finds (char? p) (one p) where
  sound {cs n} h := by
    cases cs with
    | nil => cases h
    | cons c cs =>
      rw [char?] at h
      split at h
      · next hc =>
        cases h
        exact ⟨[c], ⟨c, hc, rfl⟩, cs, rfl, rfl⟩
      · cases h
  complete {w} hw rest := by
    obtain ⟨c, hc, rfl⟩ := hw
    exact ⟨1, by simp [char?, hc], Nat.le_refl _⟩

theorem char?_stopsBefore (p : Char → Bool) (M : Language Char) :
    StopsBefore (char? p) (one p) M := by
  rintro _ ⟨c, hc, rfl⟩ v hv rest
  simp [char?, hc]

theorem run?_finds (p : Char → Bool) : Finds (run? p) (many p) where
  sound {cs n} h := by
    cases h
    exact ⟨cs.takeWhile p, List.all_takeWhile, cs.dropWhile p,
      List.takeWhile_append_dropWhile.symm, rfl⟩
  complete {w} hw rest := by
    refine ⟨_, rfl, ?_⟩
    rw [Rule.run, List.takeWhile_append_of_pos (by simpa using mem_many.1 hw)]
    simp

/-- A run stops where a character outside of its class begins the next part. -/
theorem run?_stopsBefore {p : Char → Bool} {M : Language Char}
    (hM : ∀ v ∈ M, ∃ c ∈ v.head?, p c = false) : StopsBefore (run? p) (many p) M := by
  intro u hu v hv rest
  obtain ⟨c, hc, hpc⟩ := hM v hv
  refine congrArg some (Rule.run_append hu fun d hd => ?_)
  cases v with
  | nil => cases hc
  | cons e v =>
    cases hc
    cases hd
    exact hpc

theorem exactly?_finds (text : List Char) : Finds (Rule.exactly? text) {text} where
  sound {cs n} h := by
    rw [Rule.exactly?] at h
    split at h
    · next hp =>
      cases h
      obtain ⟨rest, rfl⟩ := List.isPrefixOf_iff_prefix.1 hp
      exact ⟨text, rfl, rest, rfl, rfl⟩
    · cases h
  complete {w} hw rest := by
    cases hw
    exact ⟨text.length, by simp [Rule.exactly?], Nat.le_refl _⟩

theorem exactly?_stopsBefore (text : List Char) (M : Language Char) :
    StopsBefore (Rule.exactly? text) {text} M := by
  rintro _ rfl v hv rest
  simp [Rule.exactly?]

theorem startThenRun?_eq (p q : Char → Bool) (cs : List Char) :
    Rule.startThenRun? p q cs = andThen? (char? p) (run? q) cs := by
  cases cs with
  | nil => rfl
  | cons c cs => by_cases hc : p c <;> simp [Rule.startThenRun?, andThen?, char?, run?, hc]

theorem startThenRun?_finds (p q : Char → Bool) :
    Finds (Rule.startThenRun? p q) (one p * many q) :=
  ((char?_finds p).andThen? (run?_finds q) (char?_stopsBefore p _)).congr (startThenRun?_eq p q)

theorem startThenRun?_stopsBefore {p q : Char → Bool} {M : Language Char}
    (hM : ∀ v ∈ M, ∃ c ∈ v.head?, q c = false) :
    StopsBefore (Rule.startThenRun? p q) (one p * many q) M := by
  intro u hu v hv rest
  obtain ⟨_, ⟨c, hc, rfl⟩, u, hmany, rfl⟩ := Language.mem_mul.1 hu
  have hrun : Rule.run q (u ++ (v ++ rest)) = u.length :=
    Option.some.inj (run?_stopsBefore hM u hmany v hv rest)
  simp [Rule.startThenRun?, hc, hrun, Nat.add_comm]

/-! ## Numbers -/

/-- The letter of an exponent. -/
def isExponentMark (c : Char) : Bool := c == 'e' || c == 'E'

/-- A plus or a minus. -/
def isSign (c : Char) : Bool := c == '+' || c == '-'

/-- Digits and underscores, beginning with a digit. -/
def digits : Language Char := one isDecimal * many (orUnderscore isDecimal)

/-- A letter, an optional sign and digits. -/
def exponent : Language Char :=
  one isExponentMark * ((1 + one isSign) * (one isDecimal * many isDecimal))

/-- A zero, one of two letters, and digits of a class. -/
def prefixed (lower upper : Char) (digit : Char → Bool) : Language Char :=
  one (· == '0') * (one (fun c => c == lower || c == upper) *
    (one digit * many (orUnderscore digit)))

/-- The matcher for an optional sign. -/
def sign? : List Char → Option Nat
  | [] => some 0
  | c :: _ => some (if isSign c then 1 else 0)

theorem sign?_finds : Finds sign? (1 + one isSign) where
  sound {cs n} h := by
    cases cs with
    | nil =>
      cases h
      exact ⟨[], .inl rfl, [], rfl, rfl⟩
    | cons c cs =>
      cases h
      by_cases hc : isSign c
      · exact ⟨[c], .inr ⟨c, hc, rfl⟩, cs, rfl, by simp [hc]⟩
      · exact ⟨[], .inl rfl, c :: cs, rfl, by simp [hc]⟩
  complete {w} hw rest := by
    rcases hw with rfl | ⟨c, hc, rfl⟩
    · cases rest with
      | nil => exact ⟨0, rfl, Nat.le_refl _⟩
      | cons c rest => exact ⟨_, rfl, Nat.zero_le _⟩
    · exact ⟨1, by simp [sign?, hc], Nat.le_refl _⟩

theorem isSign_of_isDecimal {c : Char} (h : isDecimal c) : isSign c = false := by
  refine Bool.eq_false_iff.2 fun hs => ?_
  simp only [isSign, Bool.or_eq_true, beq_iff_eq] at hs
  rcases hs with rfl | rfl <;> cases h

theorem sign?_stopsBefore (q : Char → Bool) :
    StopsBefore sign? (1 + one isSign) (one isDecimal * many q) := by
  rintro u (rfl | ⟨c, hc, rfl⟩) v hv rest
  · obtain ⟨_, ⟨c, hc, rfl⟩, v, -, rfl⟩ := Language.mem_mul.1 hv
    simp [sign?, isSign_of_isDecimal hc]
  · simp [sign?, hc]

theorem exponent?_eq (cs : List Char) :
    Rule.exponent? cs = andThen? (char? isExponentMark)
      (andThen? sign? (Rule.startThenRun? isDecimal isDecimal)) cs := by
  cases cs with
  | nil => rfl
  | cons e cs =>
    rw [andThen?_char?_cons, Rule.exponent?.eq_def]
    cases cs with
    | nil => rfl
    | cons c cs =>
      by_cases hc : isSign c
      · have hmark : (c == '+' || c == '-') = true := hc
        simp [isExponentMark, hmark, andThen?, sign?, hc, Function.comp_def, ← Nat.add_assoc]
      · have hmark : (c == '+' || c == '-') = false := Bool.eq_false_iff.2 hc
        simp [isExponentMark, hmark, andThen?, sign?, hc]

theorem exponent?_finds : Finds Rule.exponent? exponent :=
  ((char?_finds _).andThen? (sign?_finds.andThen? (startThenRun?_finds _ _) (sign?_stopsBefore _))
    (char?_stopsBefore _ _)).congr exponent?_eq

theorem prefixed?_eq (lower upper : Char) (digit : Char → Bool) (cs : List Char) :
    Rule.prefixed? lower upper digit cs = andThen? (char? (· == '0'))
      (andThen? (char? fun c => c == lower || c == upper)
        (Rule.startThenRun? digit (orUnderscore digit))) cs := by
  match cs with
  | [] => rfl
  | [c] =>
    rw [andThen?_char?_cons]
    simp [Rule.prefixed?, andThen?, char?]
  | c :: d :: cs =>
    rw [andThen?_char?_cons, andThen?_char?_cons, Rule.prefixed?]
    by_cases hc : c == '0' <;> by_cases hd : d == lower || d == upper <;>
      simp [hc, hd, Function.comp_def, ← Nat.add_assoc]

theorem prefixed?_finds (lower upper : Char) (digit : Char → Bool) :
    Finds (Rule.prefixed? lower upper digit) (prefixed lower upper digit) :=
  ((char?_finds _).andThen? ((char?_finds _).andThen? (startThenRun?_finds _ _)
    (char?_stopsBefore _ _)) (char?_stopsBefore _ _)).congr (prefixed?_eq lower upper digit)

/-- Digits stop before an exponent and before a point. -/
theorem exists_head?_exponent {v : List Char} (hv : v ∈ exponent) :
    ∃ c ∈ v.head?, orUnderscore isDecimal c = false := by
  obtain ⟨_, ⟨c, hc, rfl⟩, v, -, rfl⟩ := Language.mem_mul.1 hv
  refine ⟨c, rfl, ?_⟩
  simp only [isExponentMark, Bool.or_eq_true, beq_iff_eq] at hc
  rcases hc with rfl | rfl <;> rfl

/-! ## Quoted texts -/

/-- What follows an opening quote, up to and with the closing one. -/
inductive QuotedBody (quote : Char) : List Char → Prop
  | close : QuotedBody quote [quote]
  | escape (c : Char) {w : List Char} : QuotedBody quote w → QuotedBody quote ('\\' :: c :: w)
  | plain {c : Char} {w : List Char} : c ≠ quote → c ≠ '\\' → QuotedBody quote w →
    QuotedBody quote (c :: w)

/-- The texts that follow an opening quote. -/
def quotedBody (quote : Char) : Language Char := {w | QuotedBody quote w}

/-- The closing quote is found where it is, whatever follows. -/
theorem QuotedBody.quotedBody?_append {quote : Char} (hquote : quote ≠ '\\') {w : List Char}
    (h : QuotedBody quote w) (rest : List Char) :
    Rule.quotedBody? quote (w ++ rest) = some w.length := by
  induction h with
  | close => simp [Rule.quotedBody?.eq_def]
  | escape c hw ih =>
    rw [Rule.quotedBody?.eq_def]
    simp [hquote.symm, ih, Nat.add_comm 2]
  | plain hc hslash hw ih =>
    rw [Rule.quotedBody?.eq_def]
    simp [hc, hslash, ih, Nat.add_comm 1]

theorem quotedBody?_finds {quote : Char} (hquote : quote ≠ '\\') :
    Finds (Rule.quotedBody? quote) (quotedBody quote) where
  sound {cs n} h := by
    fun_induction Rule.quotedBody? quote cs generalizing n with
    | case1 => cases h
    | case2 c cs hc =>
      cases h
      cases eq_of_beq hc
      exact ⟨[quote], .close, _, rfl, rfl⟩
    | case3 => cases h
    | case4 c hc hslash d cs ih =>
      obtain ⟨m, hm, rfl⟩ := Option.map_eq_some_iff.1 h
      obtain ⟨w, hw, rest, rfl, rfl⟩ := ih hm
      cases eq_of_beq hslash
      exact ⟨'\\' :: d :: w, .escape d hw, rest, rfl, by simp [Nat.add_comm 2]⟩
    | case5 c cs hc hslash ih =>
      obtain ⟨m, hm, rfl⟩ := Option.map_eq_some_iff.1 h
      obtain ⟨w, hw, rest, rfl, rfl⟩ := ih hm
      exact ⟨c :: w, .plain (by simpa using hc) (by simpa using hslash) hw, rest, rfl,
        by simp [Nat.add_comm]⟩
  complete hw rest := ⟨_, hw.quotedBody?_append hquote rest, Nat.le_refl _⟩

theorem quoted?_finds {quote : Char} (hquote : quote ≠ '\\') :
    Finds (Rule.quoted? quote) (one (· == quote) * quotedBody quote) := by
  refine ((char?_finds _).andThen? (quotedBody?_finds hquote) (char?_stopsBefore _ _)).congr ?_
  rintro (_ | ⟨c, cs⟩)
  · rfl
  · rw [andThen?_char?_cons]
    rfl

/-! ## Rules -/

namespace Rule

/-- The texts of the rule's class; of the comments that run on, their openings. -/
def pattern : Rule → Language Char
  | keyword k => {w | w.map Char.toLower = k.text.toList}
  | symbol s => {s.text.toList}
  | varName => one (· == '$') * (one isNameStart * many isNamePart)
  | identifier => one isNameStart * many isNamePart
  | decimalInteger => digits
  | hexInteger => prefixed 'x' 'X' isHex
  | octalInteger => prefixed 'o' 'O' isOctal
  | binaryInteger => prefixed 'b' 'B' isBinary
  | pointFloat => digits * (one (· == '.') * many (orUnderscore isDecimal)) * (1 + exponent)
  | leadingPointFloat => one (· == '.') * digits * (1 + exponent)
  | exponentFloat => digits * exponent
  | singleQuoted => one (· == '\'') * quotedBody '\''
  | doubleQuoted => one (· == '"') * quotedBody '"'
  | blank => one isCodeBlank * many isCodeBlank
  | slashComment => {['/', '/']} * many (· != '\n')
  | hashComment => {['#']}
  | blockComment => {['/', '*']}

theorem keyword_finds (k : Keyword) :
    Finds (keyword k).reach? {w | w.map Char.toLower = k.text.toList} where
  sound {cs n} h := by
    obtain ⟨hn, hlow⟩ := take_of_keyword h
    have hlen : (cs.take n).length = n := by
      rw [← List.length_map, hlow, String.length_toList, hn]
    exact ⟨cs.take n, hlow, cs.drop n, (List.take_append_drop n cs).symm, hlen⟩
  complete {w} hw rest := by
    have hlen : w.length = k.text.length := by
      rw [← List.length_map (f := Char.toLower), hw, String.length_toList]
    refine ⟨w.length, ?_, Nat.le_refl _⟩
    rw [reach?, ← hlen, List.take_left' rfl, hw, exactly?]
    simp [hlen, String.length_toList]

theorem digits?_finds : Finds digits? digits := startThenRun?_finds _ _

theorem pointFloat_eq (cs : List Char) :
    pointFloat.reach? cs = andMaybe? (andThen? digits?
      (andThen? (char? (· == '.')) (run? (orUnderscore isDecimal)))) exponent? cs := by
  rw [reach?, andMaybe?, andThen?]
  cases digits? cs with
  | none => rfl
  | some n =>
    simp only [Option.bind_eq_bind, Option.bind_some]
    cases cs.drop n with
    | nil => rfl
    | cons c ds =>
      rw [andThen?_char?_cons]
      by_cases hc : c == '.' <;> simp [hc, withExponent, run?, Nat.add_assoc]

theorem leadingPointFloat_eq (cs : List Char) :
    leadingPointFloat.reach? cs =
      andMaybe? (andThen? (char? (· == '.')) digits?) exponent? cs := by
  cases cs with
  | nil => rfl
  | cons c cs =>
    rw [reach?, andMaybe?, andThen?_char?_cons]
    by_cases hc : c == '.' <;> simp [hc, withExponent, Function.comp_def]

theorem exponentFloat_eq (cs : List Char) :
    exponentFloat.reach? cs = andThen? digits? exponent? cs := by
  rw [reach?, andThen?]
  cases digits? cs with
  | none => rfl
  | some n => cases h : exponent? (cs.drop n) <;> simp [h]

/-- Every rule finds the texts of its class. -/
theorem reach?_finds (r : Rule) : Finds r.reach? r.pattern := by
  have hpoint : ∀ v ∈ one (· == '.') * many (orUnderscore isDecimal),
      ∃ c ∈ v.head?, orUnderscore isDecimal c = false := by
    intro v hv
    obtain ⟨_, ⟨c, hc, rfl⟩, v, -, rfl⟩ := Language.mem_mul.1 hv
    cases eq_of_beq hc
    exact ⟨'.', rfl, rfl⟩
  have hexponent := fun v => exists_head?_exponent (v := v)
  cases r with
  | keyword k => exact keyword_finds k
  | symbol s => exact exactly?_finds _
  | varName =>
    refine ((char?_finds _).andThen? (startThenRun?_finds _ _) (char?_stopsBefore _ _)).congr ?_
    rintro (_ | ⟨c, cs⟩)
    · rfl
    · rw [andThen?_char?_cons]
      rfl
  | identifier | blank => exact startThenRun?_finds _ _
  | decimalInteger => exact digits?_finds
  | hexInteger | octalInteger | binaryInteger => exact prefixed?_finds _ _ _
  | pointFloat =>
    have hdigits : StopsBefore digits? digits _ := startThenRun?_stopsBefore hpoint
    have hfraction := (char?_stopsBefore (· == '.') _).andThen? (run?_stopsBefore hexponent)
    have hfinds := (char?_finds (· == '.')).andThen? (run?_finds (orUnderscore isDecimal))
      (char?_stopsBefore _ _)
    exact ((digits?_finds.andThen? hfinds hdigits).andMaybe? exponent?_finds
      (hdigits.andThen? hfraction)).congr pointFloat_eq
  | leadingPointFloat =>
    have hdigits : StopsBefore digits? digits _ := startThenRun?_stopsBefore hexponent
    have hstop := char?_stopsBefore (· == '.') digits
    exact (((char?_finds _).andThen? digits?_finds hstop).andMaybe? exponent?_finds
      (hstop.andThen? hdigits)).congr leadingPointFloat_eq
  | exponentFloat =>
    have hdigits : StopsBefore digits? digits _ := startThenRun?_stopsBefore hexponent
    exact (digits?_finds.andThen? exponent?_finds hdigits).congr exponentFloat_eq
  | singleQuoted | doubleQuoted => exact quoted?_finds (by decide)
  | slashComment =>
    refine ((exactly?_finds _).andThen? (run?_finds _) (exactly?_stopsBefore _ _)).congr
      fun cs => ?_
    rw [reach?, andThen?]
    cases exactly? ['/', '/'] cs <;> rfl
  | hashComment | blockComment => exact exactly?_finds _

theorem reach?_nil (r : Rule) : r.reach? [] = none := by
  cases r with
  | keyword k => cases k <;> decide
  | symbol s => cases s <;> decide
  | _ => rfl

theorem ne_nil_of_mem_pattern {r : Rule} {w : List Char} (hw : w ∈ r.pattern) : w ≠ [] := by
  rintro rfl
  obtain ⟨n, hn, -⟩ := r.reach?_finds.complete hw []
  cases (r.reach?_nil).symm.trans hn

theorem opens_of_mem_pattern {r : Rule} {c : Char} {w : List Char} (hw : c :: w ∈ r.pattern) :
    r.opens c := by
  obtain ⟨n, hn, -⟩ := r.reach?_finds.complete hw []
  by_contra hopens
  cases (reach?_eq_none _ (Bool.eq_false_iff.2 hopens)).symm.trans hn

/-- A text that a rule takes as a whole is taken no less of when more follows. -/
theorem le_reach? {r : Rule} {w : List Char} (hw : w ∈ r.pattern) (rest : List Char) :
    ∃ n, r.reach? (w ++ rest) = some n ∧ w.length ≤ n :=
  r.reach?_finds.complete hw rest

theorem mem_pattern_of_reach? {r : Rule} {text rest : List Char}
    (h : r.reach? (text ++ rest) = some text.length) : text ∈ r.pattern := by
  obtain ⟨w, hw, rest', hcut, hlen⟩ := r.reach?_finds.sound h
  rwa [(List.append_inj hcut hlen.symm).1]

/-! ## The longest match -/

theorem furthest_append (cs : List Char) (rules : List Rule) (r : Rule) :
    furthest cs (rules ++ [r]) = better (furthest cs rules) ((r.reach? cs).map (r, ·)) := by
  rw [furthest, List.foldl_append]
  rfl

theorem furthest_eq_none {cs : List Char} {rules : List Rule} (h : furthest cs rules = none) :
    ∀ r ∈ rules, r.reach? cs = none := by
  induction rules using List.reverseRecOn with
  | nil => simp
  | append_singleton rules r ih =>
    rw [furthest_append] at h
    have hboth : furthest cs rules = none ∧ r.reach? cs = none := by
      cases hbest : furthest cs rules with
      | none => simpa [hbest, better] using h
      | some best => cases hr : r.reach? cs <;> grind [better]
    rw [List.forall_mem_append, List.forall_mem_singleton]
    exact ⟨ih hboth.1, hboth.2⟩

/-- The rule that reaches furthest among some is the first of those that do. -/
theorem exists_of_furthest {cs : List Char} {rules : List Rule} {r : Rule} {n : Nat}
    (h : furthest cs rules = some (r, n)) :
    ∃ before after, rules = before ++ r :: after ∧ r.reach? cs = some n ∧
      (∀ s ∈ before, ∀ m, s.reach? cs = some m → m < n) ∧
      ∀ s ∈ after, ∀ m, s.reach? cs = some m → m ≤ n := by
  induction rules using List.reverseRecOn generalizing r n with
  | nil => cases h
  | append_singleton rules s ih =>
    rw [furthest_append] at h
    cases hbest : furthest cs rules with
    | none =>
      rw [hbest] at h
      obtain ⟨m, hm, heq⟩ := Option.map_eq_some_iff.1 (show (s.reach? cs).map (s, ·) = _ from h)
      cases heq
      refine ⟨rules, [], rfl, hm, fun t ht k hk => ?_, by simp⟩
      cases (furthest_eq_none hbest t ht).symm.trans hk
    | some best =>
      obtain ⟨q, k⟩ := best
      obtain ⟨before, after, rfl, hq, hbefore, hafter⟩ := ih hbest
      rw [hbest] at h
      -- The last rule wins only if it is longer than the best one before it.
      by_cases hlonger : ∃ m, s.reach? cs = some m ∧ k < m
      · obtain ⟨m, hm, hlt⟩ := hlonger
        simp only [hm, Option.map_some, better, if_pos hlt, Option.some.injEq, Prod.mk.injEq] at h
        obtain ⟨rfl, rfl⟩ := h
        refine ⟨before ++ q :: after, [], rfl, hm, fun t ht j hj => ?_, by simp⟩
        refine Nat.lt_of_le_of_lt ?_ hlt
        rcases List.mem_append.1 ht with ht | ht
        · exact (hbefore t ht j hj).le
        · rcases List.mem_cons.1 ht with rfl | ht
          · exact (Option.some.inj (hj.symm.trans hq)).le
          · exact hafter t ht j hj
      · have hle : ∀ m, s.reach? cs = some m → m ≤ k := fun m hm =>
          Nat.le_of_not_lt fun hlt => hlonger ⟨m, hm, hlt⟩
        have hkeep : better (some (q, k)) ((s.reach? cs).map (s, ·)) = some (q, k) := by
          cases hm : s.reach? cs with
          | none => rfl
          | some m => simp [better, Nat.not_lt_of_le (hle m hm)]
        cases hkeep.symm.trans h
        refine ⟨before, after ++ [s], by simp, hq, hbefore, ?_⟩
        rw [List.forall_mem_append, List.forall_mem_singleton]
        exact ⟨hafter, hle⟩

theorem longest?_eq_some_iff {cs : List Char} {r : Rule} {n : Nat} :
    longest? cs = some (r, n) ↔
      ∃ before after, all = before ++ r :: after ∧ r.reach? cs = some n ∧
        (∀ s ∈ before, ∀ m, s.reach? cs = some m → m < n) ∧
        ∀ s ∈ after, ∀ m, s.reach? cs = some m → m ≤ n := by
  refine ⟨exists_of_furthest, ?_⟩
  rintro ⟨before, after, hall, hr, hbefore, hafter⟩
  have hfurthest := furthest_eq hr hbefore hafter
  rwa [← hall] at hfurthest

theorem mem_all (r : Rule) : r ∈ all := by
  cases r with
  | keyword k => simp [all, k.mem_all]
  | symbol s => simp [all, s.mem_all]
  | _ => simp [all]

/-- No rule reaches further than the longest match. -/
theorem le_of_longest? {cs : List Char} {r s : Rule} {n m : Nat} (h : longest? cs = some (r, n))
    (hs : s.reach? cs = some m) : m ≤ n := by
  obtain ⟨before, after, hall, hr, hbefore, hafter⟩ := longest?_eq_some_iff.1 h
  have hmem := s.mem_all
  rw [hall, List.mem_append, List.mem_cons] at hmem
  rcases hmem with hmem | rfl | hmem
  · exact (hbefore s hmem m hs).le
  · exact (Option.some.inj (hs.symm.trans hr)).le
  · exact hafter s hmem m hs

end Rule

end PhpScript
