import PhpScript.Literal.Number
import PhpScript.Literal.Quoted

/-!
# Decoding what was written

The decoders of literals undo how literals are written: a string in single
quotes with its quotes and backslashes escaped (`Literal.singleQuoted_quoted`),
and a whole number in decimal that a signed 64-bit word holds
(`Literal.integer?_toDigits`).
-/

namespace PhpScript

/-- The characters of a string between single quotes. -/
def quotedChars : List Char → List Char
  | [] => []
  | c :: cs => if c == '\'' || c == '\\' then '\\' :: c :: quotedChars cs else c :: quotedChars cs

namespace Literal

/-! ## Single quotes -/

theorem body_quoted {quote : Char} (hquote : quote.utf8Size = 1) (cs : List Char) :
    body (String.ofList (quote :: cs ++ [quote])) = String.ofList cs := by
  have hmark : Text.byteLength [quote] = 1 := hquote
  have hsize : (String.ofList (quote :: cs ++ [quote])).utf8ByteSize =
      1 + Text.byteLength cs + 1 := by
    rw [Text.utf8ByteSize_ofList, Text.byteLength_append, Text.byteLength_cons, hmark, hquote]
  have hdrop := Text.dropBytes?_append [quote] (cs ++ [quote])
  have htake := Text.takeBytes?_append cs [quote]
  rw [body, Text.slice?, hsize, if_pos (by omega), String.toList_ofList,
    show 1 + Text.byteLength cs + 1 - 1 - 1 = Text.byteLength cs by omega]
  rw [hmark] at hdrop
  rw [List.cons_append, ← List.singleton_append, hdrop, Option.bind_some, htake]
  rfl

theorem unescapeSingle_quotedChars (cs : List Char) : unescapeSingle (quotedChars cs) = cs := by
  induction cs with
  | nil => rfl
  | cons c cs ih =>
    rw [quotedChars]
    split
    · next h =>
      simp only [Bool.or_eq_true, beq_iff_eq] at h
      rcases h with rfl | rfl <;> simp [unescapeSingle, ih]
    · next h =>
      simp only [Bool.or_eq_true, beq_iff_eq, not_or] at h
      rw [unescapeSingle, ih]
      all_goals simp [h]

/-- A string comes back from its quoted form. -/
theorem singleQuoted_quoted (value : String) :
    singleQuoted (String.ofList ('\'' :: quotedChars value.toList ++ ['\''])) = value := by
  rw [singleQuoted, body_quoted rfl, String.toList_ofList, unescapeSingle_quotedChars,
    String.ofList_toList]

/-! ## Double quotes -/

theorem unescapeDouble?_of_opens {b : UInt8} {rest : List UInt8} (h : opensInterpolation b rest) :
    unescapeDouble? (b :: rest) = none := by
  rw [unescapeDouble?.eq_def]
  simp only [h, if_true]

/-- A byte that begins nothing stands for itself. -/
theorem unescapeDouble?_plain {b : UInt8} {rest : List UInt8}
    (h : opensInterpolation b rest = false) (hb : b ≠ byte '\\') :
    unescapeDouble? (b :: rest) = (unescapeDouble? rest).map (b :: ·) := by
  rw [unescapeDouble?.eq_def]
  simp only [h, Bool.false_eq_true, if_false, beq_eq_false_iff_ne.2 hb]

/-- A backslash opens no variable, so what is escaped comes before what is not. -/
theorem unescapeDouble?_backslash (b : UInt8) (rest : List UInt8) :
    unescapeDouble? (byte '\\' :: b :: rest) =
      (unescapeDouble? (escape b rest).2).map ((escape b rest).1 ++ ·) := by
  have hopens : opensInterpolation (byte '\\') (b :: rest) = false := rfl
  rw [unescapeDouble?.eq_def]
  simp only [hopens, Bool.false_eq_true, if_false, beq_self_eq_true, if_true]

/-! ## Numbers -/

theorem digitValue?_digitChar {d : Nat} (h : d < 10) : digitValue? d.digitChar = some d := by
  have hall : ∀ d < 10, digitValue? (Nat.digitChar d) = some d := by decide
  exact hall d h

theorem isDigitOf_of_isDigit {c : Char} (h : c.isDigit) : isDigitOf 10 c := by
  simp only [Char.isDigit, Bool.and_eq_true, decide_eq_true_eq, ge_iff_le,
    UInt32.le_iff_toNat_le] at h
  have hdigit : '0' ≤ c ∧ c ≤ '9' := by
    simpa [Char.le_def, UInt32.le_iff_toNat_le] using h
  simp only [isDigitOf, digitValue?, hdigit, and_self, if_true, decide_eq_true_eq, Char.toNat]
  simp at h ⊢
  omega

theorem positionalValue_toDigits (n : Nat) : positionalValue 10 (Nat.toDigits 10 n) = n := by
  induction n using Nat.strongRecOn with
  | ind n ih =>
    rw [Nat.toDigits_eq_if (by decide)]
    split
    · next h => simp [positionalValue, digitValue?_digitChar h]
    · next h =>
      have hdiv := ih (n / 10) (by omega)
      rw [positionalValue] at hdiv ⊢
      rw [List.foldl_append, hdiv]
      simp [digitValue?_digitChar (Nat.mod_lt n (by decide))]
      omega

theorem head?_toDigits_ne_zero {n : Nat} (h : 0 < n) : (Nat.toDigits 10 n).head? ≠ some '0' := by
  induction n using Nat.strongRecOn with
  | ind n ih =>
    rw [Nat.toDigits_eq_if (by decide)]
    split
    · next hlt =>
      have hall : ∀ d < 10, 0 < d → [Nat.digitChar d].head? ≠ some '0' := by decide
      exact hall n hlt h
    · have hdiv := ih (n / 10) (by omega) (by omega)
      obtain ⟨c, cs, hc⟩ := List.exists_cons_of_ne_nil (Nat.toDigits_ne_nil (n := n / 10) (b := 10))
      rw [hc] at hdiv ⊢
      exact hdiv

theorem radixAndDigits_toDigits (n : Nat) :
    radixAndDigits (Nat.toDigits 10 n) = (10, Nat.toDigits 10 n) := by
  by_cases h : n < 10
  · rw [Nat.toDigits_of_lt_base h]
    unfold radixAndDigits
    split <;> simp_all
  · have hhead := head?_toDigits_ne_zero (n := n) (by omega)
    unfold radixAndDigits
    split
    all_goals try rfl
    all_goals
      next hds => simp [hds] at hhead

/-- A whole number comes back from its decimal form. -/
theorem integer?_toDigits {n : Nat} (h : n ≤ maxInteger) :
    integer? (String.ofList (Nat.toDigits 10 n)) = some (.integer n) := by
  have hdigit : ∀ c ∈ Nat.toDigits 10 n, c.isDigit := fun _ =>
    Nat.isDigit_of_mem_toDigits (by decide) (by decide)
  have hplain : withoutUnderscores (String.ofList (Nat.toDigits 10 n)) = Nat.toDigits 10 n := by
    rw [withoutUnderscores, String.toList_ofList, List.filter_eq_self]
    intro c hc
    rw [bne_iff_ne]
    rintro rfl
    cases hdigit _ hc
  have hall : (Nat.toDigits 10 n).all (isDigitOf 10) := by
    exact List.all_eq_true.2 fun c hc => isDigitOf_of_isDigit (hdigit c hc)
  rw [integer?, hplain, radixAndDigits_toDigits]
  simp [hall, positionalValue_toDigits, h]

end Literal

end PhpScript
