import PhpScript.Proofs.Parse.RoundTrip
import PhpScript.Proofs.Script.Outcome
import PhpScript.Proofs.Text.Utf8
import PhpScript.Proofs.Token.Scanning

/-!
# Strings in quotes

A string can be written in single or in double quotes, with a backslash before each
character that would not stand for itself (`Quotation.quote`). Whatever the string is, the
literal ends at its last quote, and its value is the string:

* `Quotation.ofCode_quote`: the literal is scanned as one token;
* `Quotation.decode_quote`: it stands for the string it was written for;
* `Quotation.source_quote`: so a program of one literal is read as this string, and its
  script is the string in the quotes of the script, when its offsets fit into spans.
-/

namespace PhpScript

/-- The two ways to quote a string. -/
inductive Quotation
  | single
  | double
deriving DecidableEq, Repr

namespace Quotation

/-- The quote before and after the string. -/
def mark : Quotation → Char
  | single => '\''
  | double => '"'

/-- Whether a character needs a backslash before it. -/
def isEscaped : Quotation → Char → Bool
  | single, c => c == '\\' || c == '\''
  | double, c => c == '\\' || c == '"' || c == '$'

/-- The characters between the quotes. -/
def escape (q : Quotation) : List Char → List Char
  | [] => []
  | c :: cs => if q.isEscaped c then '\\' :: c :: q.escape cs else c :: q.escape cs

/-- The literal of a string. -/
def quote (q : Quotation) (value : String) : String :=
  String.ofList (q.mark :: q.escape value.toList ++ [q.mark])

/-- The rule that takes a literal. -/
def rule : Quotation → Rule
  | single => .singleQuoted
  | double => .doubleQuoted

/-- What a literal is scanned as. -/
def kind : Quotation → TokenKind
  | single => .singleQuoted
  | double => .doubleQuoted

/-- The value of a literal. -/
def decode : Quotation → String → Option String
  | single, raw => some (Literal.singleQuoted raw)
  | double, raw => Literal.doubleQuoted? raw

/-! ## Scanning a literal -/

theorem isEscaped_mark (q : Quotation) : q.isEscaped q.mark := by cases q <;> rfl

theorem isEscaped_backslash (q : Quotation) : q.isEscaped '\\' := by cases q <;> rfl

/-- The quote at the end is the first that no backslash precedes. -/
theorem quotedBody_escape (q : Quotation) (cs : List Char) :
    QuotedBody q.mark (q.escape cs ++ [q.mark]) := by
  induction cs with
  | nil => exact .close
  | cons c cs ih =>
    rw [escape]
    split
    · exact .escape c ih
    · next hc =>
      refine .plain ?_ ?_ ih
      · rintro rfl
        exact hc q.isEscaped_mark
      · rintro rfl
        exact hc q.isEscaped_backslash

theorem toList_quote (q : Quotation) (value : String) :
    (q.quote value).toList = q.mark :: (q.escape value.toList ++ [q.mark]) :=
  String.toList_ofList

theorem ofCode_quote (q : Quotation) (value : String) (rest : List Char) :
    Lexeme.ofCode ((q.quote value).toList ++ rest) =
      .token q.kind (q.quote value).toList.length := by
  rw [toList_quote]
  have hmark : q.mark ≠ '\\' := by cases q <;> decide
  have hbody := (q.quotedBody_escape value.toList).quotedBody?_append hmark rest
  generalize q.escape value.toList ++ [q.mark] = body at hbody ⊢
  have hquoted : Rule.quoted? q.mark (q.mark :: (body ++ rest)) = some (q.mark :: body).length := by
    rw [Rule.quoted?, if_pos (beq_self_eq_true _), hbody, Option.map_some, List.length_cons,
      Nat.add_comm]
  have hreach : q.rule.reach? (q.mark :: (body ++ rest)) = some (q.mark :: body).length := by
    cases q <;> exact hquoted
  have hsole : Rule.all.filter (·.opens q.mark) = [q.rule] := by cases q <;> decide
  have hkind : q.rule.kind? = some q.kind := by cases q <;> rfl
  exact Lexeme.ofCode_of_longest? (Rule.longest?_of_sole hsole hreach) hkind

/-! ## The value of a literal -/

theorem escape_single (cs : List Char) : single.escape cs = quotedChars cs := by
  induction cs with
  | nil => rfl
  | cons c cs ih => rw [escape, quotedChars, isEscaped, Bool.or_comm, ih]

/-- Bytes without a dollar do not open a variable. -/
theorem opensInterpolation_eq_false {b : UInt8} {rest : List UInt8} (hb : b ≠ Literal.byte '$')
    (hrest : ∀ n ∈ rest.head?, n ≠ Literal.byte '$') :
    Literal.opensInterpolation b rest = false := by
  cases rest with
  | nil => rfl
  | cons n rest =>
    rw [Literal.opensInterpolation, beq_eq_false_iff_ne.2 hb,
      beq_eq_false_iff_ne.2 (hrest n rfl), Bool.false_and, Bool.and_false, Bool.or_self]

theorem unescapeDouble?_append {bs rest : List UInt8}
    (hbs : ∀ b ∈ bs, b ≠ Literal.byte '\\' ∧ b ≠ Literal.byte '$')
    (hrest : ∀ n ∈ rest.head?, n ≠ Literal.byte '$') :
    Literal.unescapeDouble? (bs ++ rest) = (Literal.unescapeDouble? rest).map (bs ++ ·) := by
  induction bs with
  | nil => simp
  | cons b bs ih =>
    rw [List.forall_mem_cons] at hbs
    have hnext : ∀ n ∈ (bs ++ rest).head?, n ≠ Literal.byte '$' := by
      cases bs with
      | nil => exact hrest
      | cons n bs =>
        rintro _ ⟨⟩
        exact (hbs.2 n List.mem_cons_self).2
    rw [List.cons_append,
      Literal.unescapeDouble?_plain (opensInterpolation_eq_false hbs.1.2 hnext) hbs.1.1,
      ih hbs.2, Option.map_map]
    rfl

/-- A character without a backslash is neither one nor a dollar, and its bytes are not either. -/
theorem ne_of_mem_encodeChar {c : Char} {b : UInt8} (hc : ¬double.isEscaped c)
    (hb : b ∈ String.utf8EncodeChar c) : b ≠ Literal.byte '\\' ∧ b ≠ Literal.byte '$' := by
  simp only [isEscaped, Bool.or_eq_true, beq_iff_eq, not_or] at hc
  exact ⟨Utf8.ne_of_mem_encodeChar hb (by decide) hc.1.1,
    Utf8.ne_of_mem_encodeChar hb (by decide) hc.2⟩

theorem head_encode_escape (cs : List Char) :
    ∀ n ∈ (Utf8.encode (double.escape cs)).head?, n ≠ Literal.byte '$' := by
  cases cs with
  | nil => simp [escape, Utf8.encode]
  | cons c cs =>
    rw [escape]
    split
    · rintro _ ⟨⟩
      decide
    · next hc =>
      intro n hn
      rw [Utf8.encode, List.flatMap_cons, List.head?_append_of_ne_nil _ (by simp)] at hn
      exact (ne_of_mem_encodeChar hc (List.mem_of_mem_head? hn)).2

theorem unescapeDouble?_escape (cs : List Char) :
    Literal.unescapeDouble? (Utf8.encode (double.escape cs)) = some (Utf8.encode cs) := by
  induction cs with
  | nil =>
    rw [escape, Utf8.encode, List.flatMap_nil, Literal.unescapeDouble?.eq_def]
  | cons c cs ih =>
    rw [escape]
    split
    · next hc =>
      simp only [isEscaped, Bool.or_eq_true, beq_iff_eq] at hc
      have hbytes : Utf8.encode ('\\' :: c :: double.escape cs) =
          Literal.byte '\\' :: Literal.byte c :: Utf8.encode (double.escape cs) := by
        rcases hc with (rfl | rfl) | rfl <;> rfl
      have hescape : Literal.escape (Literal.byte c) (Utf8.encode (double.escape cs)) =
          ([Literal.byte c], Utf8.encode (double.escape cs)) := by
        rcases hc with (rfl | rfl) | rfl <;> rfl
      rw [hbytes, Literal.unescapeDouble?_backslash, hescape, ih]
      rcases hc with (rfl | rfl) | rfl <;> rfl
    · next hc =>
      have hbytes {cs : List Char} :
          Utf8.encode (c :: cs) = String.utf8EncodeChar c ++ Utf8.encode cs := rfl
      rw [hbytes, unescapeDouble?_append (fun b => ne_of_mem_encodeChar hc) (head_encode_escape cs),
        ih]
      rfl

/-- A literal stands for the string that it was written for. -/
theorem decode_quote (q : Quotation) (value : String) :
    q.decode (q.quote value) = some value := by
  cases q with
  | single =>
    rw [decode, quote, escape_single]
    exact congrArg some (Literal.singleQuoted_quoted value)
  | double =>
    rw [decode, quote, Literal.doubleQuoted?, mark, Literal.body_quoted rfl, String.toList_ofList,
      unescapeDouble?_escape, Option.map_some, Utf8.decodeLossy_encode, String.ofList_toList]

/-! ## Programs of one literal -/

/-- The tokens of a program of one literal. -/
theorem scan_quote (q : Quotation) (value : String)
    (hsize : ("<?php " ++ q.quote value ++ ";").utf8ByteSize ≤ Span.limit) :
    ∃ ts eof, Token.scan ("<?php " ++ q.quote value ++ ";") = .ok (ts ++ [⟨.endOfFile, eof, ""⟩]) ∧
      ts.map Token.sig =
        [(q.kind, q.quote value)] ++ Piece.words [Piece.mark .semicolon] := by
  have hkind : q.kind ≠ .symbol .closeTag := by cases q <;> decide
  have hsemicolon : Lexeme.ofCode ([';'] ++ []) = .token (.symbol .semicolon) [';'].length := rfl
  have htext : ("<?php " ++ q.quote value ++ ";").toList =
      [] ++ (openTag ++ ([' '] ++ ((q.quote value).toList ++ ([';'] ++ [])))) := by
    simp [openTag]
  have hscans : ∃ ts, Token.Scans .html 0 ("<?php " ++ q.quote value ++ ";").toList ts ∧
      ts.map Token.sig = [(q.kind, q.quote value)] ++ Piece.words [Piece.mark .semicolon] := by
    rw [htext]
    refine ⟨_, .enter rfl <| .trivia (.blanks (by simp) rfl) <|
      .token (q.ofCode_quote value _) hkind <| .token hsemicolon (by decide) .done, ?_⟩
    simp [Token.ofText, Token.wide, Token.sig, Sign.sig, Sign.kind, Sign.text, Symbol.text]
  obtain ⟨ts, hscans, hsig⟩ := hscans
  have hscan : Token.scan ("<?php " ++ q.quote value ++ ";") = Token.scanWide _ :=
    Token.scan_eq_scanWide hsize
  exact ⟨ts, ⟨_, _⟩, by rw [hscan, Token.scanWide, hscans.wideFrom_eq]; rfl, hsig⟩

open Parse Written Parse.Grammar in
theorem expression_reads (q : Quotation) (value : String) (L : Nat) :
    Reads (ofLevels L).expression [(q.kind, q.quote value)] (isClosing ·) (0 + 1 ≤ L)
      fun n => ∃ span, n = .string value span := by
  have hvalue := q.decode_quote value
  refine expression_of_operand (fun k => by cases q <;> rfl) fun L =>
    operand_of_primary (fun _ => isPostfix_of_isClosing) (.zero_le (.peek_cons q.kind rfl ?_))
  intro token hk (htext : token.text = q.quote value)
  cases q with
  | single =>
    have hvalue := Option.some.inj hvalue
    simp only [hk, htext, kind, hvalue]
    exact .advance (by simp) fun _ _ => .pure ⟨_, rfl⟩
  | double =>
    have hvalue : Literal.doubleQuoted? (quote .double value) = some value := hvalue
    simp only [hk, htext, kind, hvalue]
    exact .advance (by simp) fun _ _ => .pure ⟨_, rfl⟩

/-- A program of one literal is read as the string that the literal was written for, and its
    script is this string in the quotes of the script, when its offsets fit into spans. -/
theorem source_quote (q : Quotation) (value file : String)
    (hsize : ("<?php " ++ q.quote value ++ ";").utf8ByteSize ≤ Span.limit) :
    (∃ span span', Parse.source ("<?php " ++ q.quote value ++ ";") =
        .ok [.expression (.string value span) span']) ∧
      Convert.source ("<?php " ++ q.quote value ++ ";") file = .ok (Script.quote value) := by
  obtain ⟨ts, eof, hscan, hsig⟩ := q.scan_quote value hsize
  have hbegins : Written.BeginsAsTerm [(q.kind, q.quote value)] :=
    ⟨fun _ => by cases q <;> rfl, fun _ _ h => by cases q <;> cases h⟩
  rcases Written.source_of_scan hscan hsig hbegins (q.expression_reads value) with
    ⟨-, _, span', hsource, span, rfl⟩ | ⟨hdeep, -⟩
  · exact ⟨⟨span, span', hsource⟩, Convert.source_eq_ok_iff.2 ⟨_, hsource, rfl⟩⟩
  · exact absurd hdeep (by decide)

/-- A string of every character that is escaped, and of more than one byte to a character. -/
theorem source_quote_escaped :
    ("<?php " ++ double.quote "é\"\\$'" ++ ";").utf8ByteSize ≤ Span.limit ∧
      (∃ span span', Parse.source ("<?php " ++ double.quote "é\"\\$'" ++ ";") =
        .ok [.expression (.string "é\"\\$'" span) span']) ∧
      Convert.source ("<?php " ++ double.quote "é\"\\$'" ++ ";") "page.php" =
        .ok (Script.quote "é\"\\$'") := by
  have hsize : ("<?php " ++ double.quote "é\"\\$'" ++ ";").utf8ByteSize ≤ Span.limit := by
    decide +kernel
  exact ⟨hsize, source_quote double "é\"\\$'" "page.php" hsize⟩

/-- A string of `Span.limit + 1` letters does not come back from its literal. -/
theorem not_always_quoted :
    ¬∀ (q : Quotation) (value file : String),
      (∃ span span', Parse.source ("<?php " ++ q.quote value ++ ";") =
        .ok [.expression (.string value span) span']) ∧
      Convert.source ("<?php " ++ q.quote value ++ ";") file = .ok (Script.quote value) := by
  intro h
  obtain ⟨n, hn⟩ : ∃ n, n = Span.limit + 1 := ⟨_, rfl⟩
  have hread := Written.source_lettersText hn
  have htext : "<?php " ++ single.quote (Written.letters n) ++ ";" = Written.lettersText n := by
    rw [Written.lettersText, quote, escape_single]
    simp [Written.Term.written, Written.Term.pieces, Piece.text, Sign.text, mark]
  obtain ⟨⟨span, span', hsource⟩, -⟩ := h .single (Written.letters n) ""
  rw [htext, hread] at hsource
  have hvalue : "" = Written.letters n :=
    (Node.string.inj (Node.expression.inj (List.cons.inj (Except.ok.inj hsource)).1).1).1
  have hlength := congrArg String.length hvalue
  simp [Written.letters, hn] at hlength

end Quotation

end PhpScript
