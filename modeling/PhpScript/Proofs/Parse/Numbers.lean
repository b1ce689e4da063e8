import PhpScript.Proofs.Literal.Numeral
import PhpScript.Proofs.Parse.Blame
import PhpScript.Proofs.Parse.RoundTrip
import PhpScript.Proofs.Script.Outcome

/-!
# Numbers in programs

From the text of a number to its value and back. The tokens of a scanned text have values,
but for malformed octal numbers, and only these are refused by the parser as numbers
(`Parse.malformed_of_invalidNumber`). A whole number is written in decimal in the script, and
this text is read as the same number again (`Parse.isNumeral_integer`).
-/

namespace PhpScript

open Literal (IsMalformedOctal Spells withoutUnderscores)

/-! ## Tokens -/

/-- A text that the scanner takes for a number is one that its decoder has a value for, or a
    malformed octal number. -/
theorem Lexeme.decodes_of_token {kind : TokenKind} {text rest : List Char}
    (h : ofCode (text ++ rest) = .token kind text.length) :
    (kind = .integer → Literal.IsDecoded (String.ofList text)) ∧
      (kind = .float → (Literal.float? (String.ofList text)).isSome) := by
  have hpattern : (String.ofList text).toList ∈ kind.pattern := by
    rw [String.toList_ofList]
    exact (matches_of_token h).pattern
  constructor
  · rintro rfl
    exact Literal.isDecoded_of_mem_pattern hpattern
  · rintro rfl
    exact Literal.float?_isSome hpattern

section

variable {source : String} {tokens : List Token}

/-- The text of a token other than plain text and the end of the file is one of its kind. -/
theorem Token.mem_pattern (hsize : source.utf8ByteSize ≤ Span.limit)
    (h : scan source = .ok tokens) {t : Token} (ht : t ∈ tokens) (hplain : t.kind ≠ .inlineHtml)
    (hend : t.kind ≠ .endOfFile) : t.text.toList ∈ t.kind.pattern := by
  rw [scan_eq_scanWide hsize] at h
  obtain ⟨before, hbefore, heq⟩ := exists_of_bind_eq_ok h
  cases heq
  rcases List.mem_append.1 ht with ht | ht
  · obtain ⟨_, _, -, -, hmatches⟩ := (Scans.of_wideFrom hbefore).isMatched [] rfl t ht hplain
    exact hmatches.pattern
  · exact absurd (List.mem_singleton.1 ht ▸ rfl) hend

theorem Token.isDecoded (hsize : source.utf8ByteSize ≤ Span.limit) (h : scan source = .ok tokens)
    {t : Token} (ht : t ∈ tokens) (hkind : t.kind = .integer) : Literal.IsDecoded t.text := by
  have hpattern := mem_pattern hsize h ht (by simp [hkind]) (by simp [hkind])
  rw [hkind] at hpattern
  exact Literal.isDecoded_of_mem_pattern hpattern

theorem Token.isSome_float? (hsize : source.utf8ByteSize ≤ Span.limit)
    (h : scan source = .ok tokens) {t : Token} (ht : t ∈ tokens) (hkind : t.kind = .float) :
    (Literal.float? t.text).isSome := by
  have hpattern := mem_pattern hsize h ht (by simp [hkind]) (by simp [hkind])
  rw [hkind] at hpattern
  exact Literal.float?_isSome hpattern

end

/-! ## Refused numbers -/

/-- The words of the errors that are not about a number. -/
theorem ParseError.message_cases (e : ParseError) :
    e = .invalidNumber e.span ∨ '`' ∈ e.message.toList ∨ ',' ∈ e.message.toList ∨
      e.message = "unterminated comment" ∨ e.message = "nesting too deep" := by
  cases e with
  | scan error =>
    cases error with
    | unrecognized text span =>
      have hmark : '`' ∈ ("unrecognized input `" ++ text ++ "`").toList := by
        rw [String.toList_append, List.mem_append]
        exact .inr (by decide)
      exact .inr (.inl hmark)
    | unterminatedComment span => exact .inr (.inr (.inr (.inl rfl)))
  | unexpected complaint found =>
    have hcomma : ',' ∈ (complaint.message ++ ", found " ++ found.describe).toList := by
      rw [String.toList_append, String.toList_append, List.mem_append, List.mem_append]
      exact .inl (.inr (by decide))
    exact .inr (.inr (.inl hcomma))
  | invalidNumber span => exact .inl rfl
  | tooDeep span => exact .inr (.inr (.inr (.inr rfl)))

/-- The words of an error about a number are those of no other error. -/
theorem ParseError.eq_invalidNumber {e : ParseError}
    (h : e.message = "invalid numeric literal") : e = .invalidNumber e.span := by
  have hcases := e.message_cases
  rw [h] at hcases
  exact hcases.resolve_right (by decide)

/-- What is refused as a number is a malformed octal number. -/
theorem Parse.malformed_of_invalidNumber {text : String} {e : ParseError}
    (hsize : text.utf8ByteSize ≤ Span.limit) (h : source text = .error e)
    (hmessage : e.message = "invalid numeric literal") :
    ∃ tokens, Token.scan text = .ok tokens ∧ ∃ t ∈ tokens, t.span = e.span ∧ t.kind = .integer ∧
      IsMalformedOctal (withoutUnderscores t.text) := by
  have he := ParseError.eq_invalidNumber hmessage
  obtain ⟨error, hscanned, -⟩ | ⟨tokens, hscan, habout⟩ := source_error_cases hsize h
  · rw [hscanned] at he
    cases he
  · rw [he] at habout
    obtain ⟨t, ht, hspan, hmisspelled⟩ := habout
    refine ⟨tokens, hscan, t, ht, hspan, ?_⟩
    rcases hmisspelled with ⟨hkind, hnone⟩ | ⟨hkind, hnone⟩
    · exact ⟨hkind, (Token.isDecoded hsize hscan ht hkind).refused.1 hnone⟩
    · have hsome := Token.isSome_float? hsize hscan ht hkind
      rw [hnone] at hsome
      cases hsome

/-! ## Written numbers -/

namespace Parse

open Written Grammar in
theorem integer_reads {n : Nat} (hn : n ≤ Literal.maxInteger) (L : Nat) :
    Reads (ofLevels L).expression [(Sign.integer n).sig] (isClosing ·) (0 + 1 ≤ L)
      fun node => ∃ span, node = .integer n span := by
  refine expression_of_operand (fun _ => rfl) fun L =>
    operand_of_primary (fun _ => isPostfix_of_isClosing) (.zero_le (.peek_cons .integer rfl ?_))
  intro token hk (htext : token.text = String.ofList (Nat.toDigits 10 n))
  simp only [hk, htext, Literal.integer?_toDigits hn]
  exact .advance (by simp [Sign.sig, Sign.kind]) fun _ _ => .pure ⟨_, rfl⟩

/-- The decimal numeral of a number spells it, without a zero before other digits. -/
theorem spells_toDigits (n : Nat) :
    Spells 10 (Nat.toDigits 10 n) n ∧
      ((Nat.toDigits 10 n).head? = some '0' → Nat.toDigits 10 n = ['0']) := by
  constructor
  · have hdigit : ∀ c ∈ Nat.toDigits 10 n, isDigitOf 10 c := fun c hc =>
      Literal.isDigitOf_of_isDigit (Nat.isDigit_of_mem_toDigits (by decide) (by decide) hc)
    have hspells := Literal.spells_positionalValue hdigit (by decide)
    rwa [Literal.positionalValue_toDigits] at hspells
  · intro hhead
    rcases Nat.eq_zero_or_pos n with rfl | hpos
    · rfl
    · exact absurd hhead (Literal.head?_toDigits_ne_zero hpos)

theorem integer_eq (n : Nat) : Script.integer n = String.ofList (Nat.toDigits 10 n) := by
  rw [Script.integer, if_neg (by omega), Int.natAbs_natCast, String.empty_append]

/-- The numeral of an integer is short. -/
theorem size_integer {n : Nat} (hn : n ≤ Literal.maxInteger) :
    (Written.programText [.sign (.integer n)]).utf8ByteSize ≤ Span.limit := by
  have hlength : (Nat.toDigits 10 n).length ≤ 19 :=
    Nat.toDigits_length 10 n 19 (by decide) (Nat.lt_of_le_of_lt hn (by decide))
  have hbytes := Text.byteLength_le (Nat.toDigits 10 n)
  have hpiece : (Piece.sign (Sign.integer n)).text = Nat.toDigits 10 n := rfl
  rw [Written.size_programText, List.flatMap_singleton, hpiece, Span.limit]
  omega

/-- The numeral of an integer is scanned as one token. -/
theorem scan_integer {n : Nat} (hn : n ≤ Literal.maxInteger) :
    ∃ ts eof, Token.scan ("<?php " ++ Script.integer n ++ ";") =
        .ok (ts ++ [⟨.endOfFile, eof, ""⟩]) ∧
      ts.map Token.sig = [(.integer, Script.integer n), (.symbol .semicolon, ";")] := by
  have hchain : List.IsChain Piece.Fits [.sign (.integer n)] := List.isChain_singleton _
  obtain ⟨ts, eof, hscan, hsig⟩ := Written.scan_pieces hchain (size_integer hn)
  rw [Written.programText, List.flatMap_singleton] at hscan
  refine ⟨ts, eof, integer_eq n ▸ hscan, ?_⟩
  rw [hsig, integer_eq]
  rfl

/-- A program of one numeral is the number, and its script is the numeral again. -/
theorem source_integer {n : Nat} (hn : n ≤ Literal.maxInteger) (file : String) :
    (∃ span span', source ("<?php " ++ Script.integer n ++ ";") =
        .ok [.expression (.integer n span) span']) ∧
      Convert.source ("<?php " ++ Script.integer n ++ ";") file = .ok (Script.integer n) := by
  obtain ⟨ts, eof, hscan, hsig⟩ := scan_integer hn
  have hwords : ts.map Token.sig = [(Sign.integer n).sig] ++ Piece.words [.mark .semicolon] := by
    rw [hsig, integer_eq]
    rfl
  have hbegins : Written.BeginsAsTerm [(Sign.integer n).sig] :=
    ⟨fun _ => rfl, fun _ _ h => by cases h⟩
  rcases Written.source_of_scan hscan hwords hbegins (integer_reads hn) with
    ⟨-, _, span', hsource, span, rfl⟩ | ⟨hdeep, -⟩
  · exact ⟨⟨span, span', hsource⟩, Convert.source_eq_ok_iff.2 ⟨_, hsource, rfl⟩⟩
  · exact absurd hdeep (by decide)

/-- The text is the decimal numeral of the number in a script, and as a literal it is the
    number again. -/
structure IsNumeral (n : Nat) (text : String) : Prop where
  emitted : ∀ span, Script.ofNodes [.integer n span] = .ok text
  spells : Spells 10 text.toList n
  /-- No zero stands before other digits. -/
  leadingZero : text.toList.head? = some '0' → text = "0"
  decoded : Literal.integer? text = some (.integer n)
  scanned : ∃ ts eof, Token.scan ("<?php " ++ text ++ ";") = .ok (ts ++ [⟨.endOfFile, eof, ""⟩]) ∧
    ts.map Token.sig = [(.integer, text), (.symbol .semicolon, ";")]
  parsed : ∃ span span', source ("<?php " ++ text ++ ";") =
    .ok [.expression (.integer n span) span']
  converted : ∀ file, Convert.source ("<?php " ++ text ++ ";") file = .ok text

theorem isNumeral_integer {n : Nat} (hn : n ≤ Literal.maxInteger) :
    IsNumeral n (Script.integer n) where
  emitted _ := rfl
  spells := by
    rw [integer_eq, String.toList_ofList]
    exact (spells_toDigits n).1
  leadingZero h := by
    rw [integer_eq, String.toList_ofList] at h
    rw [integer_eq, (spells_toDigits n).2 h]
  decoded := by
    rw [integer_eq]
    exact Literal.integer?_toDigits hn
  scanned := scan_integer hn
  parsed := (source_integer hn "").1
  converted file := (source_integer hn file).2

/-- The numbers of a program: what the scanner takes for an integer is decoded to the number
    that it spells or is a malformed octal number, and what it takes for a float has a value;
    the numeral of an integer in a script is that integer again. As long as spans reach to the
    end of a text, so it is for the tokens of the text, and what the parser refuses as a number
    is a malformed octal number. -/
theorem numbers_decoded :
    (∀ kind text rest, Lexeme.ofCode (text ++ rest) = .token kind text.length →
      (kind = .integer → Literal.IsDecoded (String.ofList text)) ∧
      (kind = .float → (Literal.float? (String.ofList text)).isSome)) ∧
    (∀ text tokens, text.utf8ByteSize ≤ Span.limit → Token.scan text = .ok tokens → ∀ t ∈ tokens,
      (t.kind = .integer → Literal.IsDecoded t.text) ∧
      (t.kind = .float → (Literal.float? t.text).isSome)) ∧
    (∀ n ≤ 2 ^ 63 - 1, ∃ numeral, IsNumeral n numeral) ∧
    ∀ text e, text.utf8ByteSize ≤ Span.limit → source text = .error e →
      e.message = "invalid numeric literal" →
      ∃ tokens, Token.scan text = .ok tokens ∧ ∃ t ∈ tokens, t.span = e.span ∧
        t.kind = .integer ∧ IsMalformedOctal (withoutUnderscores t.text) := by
  refine ⟨fun kind text rest h => ?_, fun text tokens hsize hscan t ht => ?_, fun n hn => ?_,
    fun text e hsize h hmessage => ?_⟩
  · exact Lexeme.decodes_of_token h
  · exact ⟨Token.isDecoded hsize hscan ht, Token.isSome_float? hsize hscan ht⟩
  · exact ⟨_, isNumeral_integer hn⟩
  · exact malformed_of_invalidNumber hsize h hmessage

/-- An octal number and one that is malformed, in one text. -/
theorem octals_decoded :
    "<?php 0_17 + 0_18;".utf8ByteSize ≤ Span.limit ∧
    ∃ tokens, Token.scan "<?php 0_17 + 0_18;" = .ok tokens ∧
      (∃ t ∈ tokens, t.text = "0_17" ∧ Literal.IsDecoded t.text ∧
        Literal.integer? t.text = some (.integer 15)) ∧
      ∃ e, source "<?php 0_17 + 0_18;" = .error e ∧ e.message = "invalid numeric literal" ∧
        ∃ tokens, Token.scan "<?php 0_17 + 0_18;" = .ok tokens ∧ ∃ t ∈ tokens, t.span = e.span ∧
          t.kind = .integer ∧ IsMalformedOctal (withoutUnderscores t.text) := by
  have hscan : Token.scan "<?php 0_17 + 0_18;" = .ok
      [⟨.integer, ⟨6, 10⟩, "0_17"⟩, ⟨.symbol .plus, ⟨11, 12⟩, "+"⟩, ⟨.integer, ⟨13, 17⟩, "0_18"⟩,
       ⟨.symbol .semicolon, ⟨17, 18⟩, ";"⟩, ⟨.endOfFile, ⟨18, 18⟩, ""⟩] := by decide +kernel
  have herror : source "<?php 0_17 + 0_18;" = .error (.invalidNumber ⟨13, 17⟩) := by
    have hcheck : (source "<?php 0_17 + 0_18;").map (fun _ => ()) =
        .error (.invalidNumber ⟨13, 17⟩) := by decide +kernel
    cases hsource : source "<?php 0_17 + 0_18;" with
    | ok nodes => rw [hsource] at hcheck; cases hcheck
    | error e => rw [hsource] at hcheck; cases hcheck; rfl
  have hsize : "<?php 0_17 + 0_18;".utf8ByteSize ≤ Span.limit := by decide +kernel
  refine ⟨hsize, _, hscan, ⟨_, List.mem_cons_self, rfl, ?_, by decide +kernel⟩, _, herror, rfl, ?_⟩
  · exact (numbers_decoded.2.1 _ _ hsize hscan _ List.mem_cons_self).1 rfl
  · exact numbers_decoded.2.2.2 _ _ hsize herror rfl

/-- The number `1` right beyond the largest offset. -/
theorem scan_farNumber {n : Nat} (hn : openTag.length + n = Span.limit + 1) :
    Token.scan (Token.farText [] n "1;".toList) = .ok [⟨.integer, ⟨0, 1⟩, "<"⟩,
      ⟨.symbol .semicolon, ⟨1, 2⟩, "?"⟩, ⟨.endOfFile, ⟨2, 2⟩, ""⟩] :=
  Token.scan_farStatement ['1'] ['<'] ['?'] rfl rfl rfl rfl (by decide) hn

/-- A number beyond the largest offset is refused for what stands at its span. -/
theorem not_always_malformed :
    ¬∀ (text : String) (e : ParseError), source text = .error e →
      e.message = "invalid numeric literal" →
      ∃ tokens, Token.scan text = .ok tokens ∧ ∃ t ∈ tokens, t.span = e.span ∧
        t.kind = .integer ∧ IsMalformedOctal (withoutUnderscores t.text) := by
  intro h
  obtain ⟨n, hn⟩ : ∃ n, openTag.length + n = Span.limit + 1 := ⟨Span.limit - 4, rfl⟩
  have hscan := scan_farNumber hn
  have hsource : source (Token.farText [] n "1;".toList) = .error (.invalidNumber ⟨0, 1⟩) := by
    rw [source, start, hscan]
    rfl
  obtain ⟨tokens, hscan', t, ht, hspan, hkind, digits, hdigits, -⟩ := h _ _ hsource rfl
  cases hscan.symm.trans hscan'
  obtain rfl : t = ⟨.integer, ⟨0, 1⟩, "<"⟩ := by
    rcases List.mem_cons.1 ht with rfl | ht
    · rfl
    · rcases List.mem_pair.1 ht with rfl | rfl <;> cases hkind
  cases hdigits

end Parse

end PhpScript
