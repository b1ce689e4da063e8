import PhpScript.Proofs.Convert.Location
import PhpScript.Report

/-!
# What is underlined

The report of an error shows the line of the error, and below it the characters
that the span of the error covers are marked. Which characters these are is told
by their offsets (`columnsAt`), without the column that the error names and
without counting bytes along the line.

* `underlineBelow_line`: the marks are below the characters of the span, and the
  blanks before them are as wide as what is shown before the span;
* `snippet_underlined`: where the line and the marks begin. They do in the same
  column as long as the number of the line has at most three digits, and only then
  (`not_always_aligned`).
-/

namespace PhpScript.Report

open LineMap
open Text (byteLength)

/-! ## Columns -/

/-- The number of columns that some characters of `cs` are shown in: those whose
    offsets are counted. The first one is at `offset`. -/
def columnsAt (counted : Nat → Bool) : (offset : Nat) → (cs : List Char) → Nat
  | _, [] => 0
  | offset, c :: cs =>
    (if counted offset then width c else 0) + columnsAt counted (offset + c.utf8Size) cs

section

variable {counted counted' : Nat → Bool} {offset start stop : Nat} {cs : List Char}

theorem columnsAt_append (as bs : List Char) :
    columnsAt counted offset (as ++ bs) =
      columnsAt counted offset as + columnsAt counted (offset + byteLength as) bs := by
  induction as generalizing offset with
  | nil => simp [columnsAt]
  | cons c as ih => simp [columnsAt, ih, Nat.add_assoc]

/-- Only the offsets of the characters themselves matter. -/
theorem columnsAt_congr
    (h : ∀ o, offset ≤ o → o < offset + byteLength cs → counted o = counted' o) :
    columnsAt counted offset cs = columnsAt counted' offset cs := by
  induction cs generalizing offset with
  | nil => rfl
  | cons c cs ih =>
    have hc := c.utf8Size_pos
    rw [Text.byteLength_cons] at h
    rw [columnsAt, columnsAt, h offset (Nat.le_refl _) (by omega),
      ih fun o hlo hhi => h o (by omega) (by omega)]

theorem columnsAt_none
    (h : ∀ o, offset ≤ o → o < offset + byteLength cs → counted o = false) :
    columnsAt counted offset cs = 0 := by
  have hcongr : columnsAt counted offset cs = columnsAt (fun _ => false) offset cs :=
    columnsAt_congr h
  rw [hcongr]
  clear h hcongr
  induction cs generalizing offset with
  | nil => rfl
  | cons c cs ih => simp [columnsAt, ih]

/-! ## Marks -/

/-- From its start on, a span is marked up to its stop. -/
theorem underlineBelow_marks (stop offset : Nat) (cs : List Char) :
    underlineBelow 0 (stop - offset) cs =
      List.replicate (columnsAt (· < stop) offset cs) '~' := by
  induction cs generalizing offset with
  | nil => rfl
  | cons c cs ih =>
    rw [underlineBelow]
    split
    · next hstop =>
      rw [columnsAt_none fun o ho _ => decide_eq_false (by omega)]
      rfl
    · next hstop =>
      rw [Nat.sub_sub, ih, columnsAt, if_pos (decide_eq_true (by omega)), List.replicate_add]

/-- What is skipped is blank. -/
theorem underlineBelow_skip (skip bytes offset : Nat) (left more : List Char) :
    underlineBelow (left.length + skip) bytes (left ++ more) =
      List.replicate (columnsAt (fun _ => true) offset left) ' ' ++
        underlineBelow skip bytes more := by
  induction left generalizing offset with
  | nil => simp [columnsAt]
  | cons c left ih =>
    rw [List.length_cons, Nat.add_right_comm, List.cons_append, underlineBelow,
      ih (offset + c.utf8Size), columnsAt, if_pos rfl, List.replicate_add, List.append_assoc]

/-- Blanks below what is before the span, and marks below what is in it. The line can
    end before the span begins, and then there are no marks. -/
theorem underlineBelow_append (skip : Nat) {left more : List Char}
    (hleft : offset + byteLength left ≤ start)
    (hmore : more = [] ∨ skip = 0 ∧ offset + byteLength left = start) :
    underlineBelow (left.length + skip) (stop - start) (left ++ more) =
      List.replicate (columnsAt (· < start) offset (left ++ more)) ' ' ++
      List.replicate (columnsAt (fun o => start ≤ o && o < stop) offset (left ++ more)) '~' := by
  have hblanks : columnsAt (· < start) offset left = columnsAt (fun _ => true) offset left :=
    columnsAt_congr fun o _ ho => decide_eq_true (by omega)
  have hmarks : columnsAt (fun o => start ≤ o && o < stop) offset left = 0 :=
    columnsAt_none fun o _ ho => by simp; omega
  rw [underlineBelow_skip skip _ offset, columnsAt_append, columnsAt_append, hblanks, hmarks]
  rcases hmore with rfl | ⟨rfl, hstart⟩
  · cases skip <;> simp [underlineBelow, columnsAt]
  · have hafter : columnsAt (· < stop) start more =
        columnsAt (fun o => start ≤ o && o < stop) start more :=
      columnsAt_congr fun o ho _ => by simp [ho]
    rw [hstart, underlineBelow_marks, Nat.zero_add, hafter,
      columnsAt_none fun o ho _ => decide_eq_false (Nat.not_lt_of_le ho), Nat.add_zero]

end

/-- The blanks and the marks below the line of a cut, for a span that begins at the
    cut and goes on to `stop`. -/
theorem underlineBelow_line {text : String} {start : Nat} (cut : LineCut text start)
    (stop : Nat) :
    underlineBelow cut.within.length (stop - start) cut.lineText.toList =
      List.replicate (columnsAt (· < start) (byteLength cut.before) cut.lineText.toList) ' ' ++
      List.replicate (columnsAt (fun o => start ≤ o && o < stop) (byteLength cut.before)
        cut.lineText.toList) '~' := by
  have hstart := cut.offset_eq
  rw [LineCut.lineText, String.toList_ofList]
  rcases eq_of_lineEnds_eq_zero cut.unbroken with hplain | ⟨init, hwithin, hplain, hrest⟩
  · rw [List.takeWhile_append_of_pos (by simpa using hplain)]
    exact underlineBelow_append 0 (Nat.le_of_eq hstart) (.inr ⟨rfl, hstart⟩)
  · -- The span begins inside of what ends the line.
    have hline : (cut.within ++ cut.rest).takeWhile (!isTerminator ·) = init := by
      rw [hwithin, List.append_assoc]
      exact takeWhile_of_plain hplain (by simp [isTerminator])
    rw [hwithin, Text.byteLength_append] at hstart
    have hinit : byteLength cut.before + byteLength init ≤ start := by omega
    rw [hline, hwithin, List.length_append]
    simpa using underlineBelow_append 1 hinit (.inl rfl)

/-! ## Snippets -/

/-- The characters of the line that `span` covers, marked; at least one mark. -/
def marksBelow {text : String} (span : Span) (cut : LineCut text span.start) : String :=
  let line := cut.lineText.toList
  let lineStart := byteLength cut.before
  let blanks := columnsAt (· < span.start) lineStart line
  let marks := columnsAt (fun o => span.start ≤ o && o < span.stop) lineStart line
  String.ofList (List.replicate blanks ' ' ++ List.replicate (max 1 marks) '~')

/-- The snippet is two lines: the first one shows `line` from a column on, after what
    does not belong to it, and below it there is `marks` after blanks up to `margin`. -/
def IsLaidOut (snippet line marks : String) (column margin : Nat) : Prop :=
  ∃ head : List Char, head.length = column ∧ '\n' ∉ head ∧
    snippet = String.ofList ('\n' :: head ++ line.toList ++ '\n' :: List.replicate margin ' ' ++
      marks.toList)

theorem underline_eq {text : String} (span : Span) (cut : LineCut text span.start) :
    underline cut.lineText cut.location.column span.length = marksBelow span cut := by
  have hskip : cut.location.column - 1 = cut.within.length := Nat.add_sub_cancel_left ..
  simp only [underline, hskip, Span.length, underlineBelow_line, marksBelow]
  generalize columnsAt (fun o => span.start ≤ o && o < span.stop) _ _ = marks
  generalize columnsAt (· < span.start) _ _ = blanks
  cases marks with
  | zero => simp
  | succ marks => simp [List.replicate_succ]

theorem length_lineNumber (n : Nat) :
    (lineNumber n).toList.length = max 3 (Nat.toDigits 10 n).length := by
  simp only [lineNumber, String.toList_ofList, List.length_append, List.length_replicate]
  omega

theorem newline_not_mem_lineNumber (n : Nat) : '\n' ∉ (lineNumber n).toList := by
  rw [lineNumber, String.toList_ofList, List.mem_append, not_or]
  refine ⟨by simp, fun hmem => ?_⟩
  cases Nat.isDigit_of_mem_toDigits (by decide) (by decide) hmem

theorem newline_not_mem_withoutTabs {text : String} {start : Nat} (cut : LineCut text start) :
    '\n' ∉ (withoutTabs cut.lineText).toList := by
  rw [withoutTabs, String.toList_ofList, LineCut.lineText, String.toList_ofList]
  intro hmem
  obtain ⟨c, hc, hmem⟩ := List.mem_flatMap.1 hmem
  split at hmem
  · simp at hmem
  · obtain rfl : '\n' = c := List.mem_singleton.1 hmem
    cases List.mem_takeWhile_imp hc

/-- Where the parts of a snippet begin. -/
theorem snippet?_isLaidOut {text : String} {e : ConvertError} {span : Span}
    {cut : LineCut text span.start} (hspan : e.span? = some span)
    (hlocation : e.location? = some cut.location) (hline : e.lineText? = some cut.lineText) :
    ∃ snippet, snippet? false e = some snippet ∧
      IsLaidOut snippet (withoutTabs cut.lineText) (marksBelow span cut)
        (5 + max 3 (Nat.toDigits 10 cut.location.line).length) 8 := by
  refine ⟨_, by simp only [snippet?, hline, hlocation, hspan]; rfl, ?_⟩
  refine ⟨"  ".toList ++ (lineNumber cut.location.line).toList ++ "   ".toList, ?_, ?_, ?_⟩
  · simp only [List.length_append, length_lineNumber]
    simp
    omega
  · simp [newline_not_mem_lineNumber]
  · rw [← underline_eq, styled, if_neg Bool.false_ne_true, ← String.toList_inj]
    simp [List.replicate]

/-- A snippet can be laid out in one way only. -/
theorem IsLaidOut.unique {snippet line marks : String} {column column' margin margin' : Nat}
    (h : IsLaidOut snippet line marks column margin)
    (h' : IsLaidOut snippet line marks column' margin') (hline : '\n' ∉ line.toList) :
    column = column' ∧ margin = margin' := by
  obtain ⟨head, rfl, hhead, rfl⟩ := h
  obtain ⟨head', rfl, hhead', heq⟩ := h'
  have hlists := String.ofList_injective heq
  simp only [List.cons_append, List.append_assoc] at hlists
  rw [List.cons_inj_right, ← List.append_assoc, ← List.append_assoc] at hlists
  -- The first line of both ends at the next line feed.
  have hfirst {head rest : List Char} (hhead : '\n' ∉ head) :
      (head ++ line.toList ++ '\n' :: rest).takeWhile (· != '\n') = head ++ line.toList := by
    have hplain : ∀ c ∈ head ++ line.toList, c != '\n' := by
      rintro c hc
      rw [bne_iff_ne]
      rintro rfl
      exact (List.mem_append.1 hc).elim hhead hline
    rw [List.takeWhile_append_of_pos hplain, List.takeWhile_cons_of_neg (by simp), List.append_nil]
  have hheads := congrArg (List.takeWhile (· != '\n')) hlists
  rw [hfirst hhead, hfirst hhead', List.append_cancel_right_eq] at hheads
  subst hheads
  rw [List.append_cancel_left_eq, List.cons_inj_right, List.append_cancel_right_eq] at hlists
  exact ⟨rfl, by simpa using congrArg List.length hlists⟩

/-- The line and its marks begin in the same column as long as the number of the line
    has at most three digits. -/
theorem aligned_iff {text : String} {span : Span} {cut : LineCut text span.start}
    {snippet : String}
    (h : IsLaidOut snippet (withoutTabs cut.lineText) (marksBelow span cut)
      (5 + max 3 (Nat.toDigits 10 cut.location.line).length) 8) :
    (∃ column, IsLaidOut snippet (withoutTabs cut.lineText) (marksBelow span cut) column column) ↔
      cut.location.line < 1000 := by
  have hdigits : (Nat.toDigits 10 cut.location.line).length ≤ 3 ↔ cut.location.line < 10 ^ 3 :=
    Nat.length_toDigits_le_iff (by decide) (by decide)
  rw [show 1000 = 10 ^ 3 from rfl, ← hdigits]
  constructor
  · rintro ⟨column, hcolumn⟩
    obtain ⟨hleft, hright⟩ := h.unique hcolumn (newline_not_mem_withoutTabs cut)
    omega
  · intro hle
    rw [Nat.max_eq_left hle] at h
    exact ⟨8, h⟩

/-- What an error of a conversion says about its place, told by any cut there. -/
theorem exists_span_of_source_error {text file : String} {e : ConvertError}
    (hsize : text.utf8ByteSize < Span.limit) (h : Convert.source text file = .error e) :
    e.file? = some file ∧ ∃ span, e.span? = some span ∧ span.Fits text ∧
      ∀ cut : LineCut text span.start,
        e.location? = some cut.location ∧ e.lineText? = some cut.lineText := by
  obtain ⟨error, rfl, hfits⟩ | ⟨error, rfl, hfits⟩ := Convert.exists_of_source_error hsize.le h
  all_goals
    refine ⟨rfl, error.span, ?_, hfits, fun cut => ?_⟩
    · simp [ConvertError.span?, hfits.isUnknown_eq hsize]
    · simp [ConvertError.location?, ConvertError.lineText?, ConvertError.place,
        Convert.ofSpan_eq hsize hfits cut]

/-- The report of an error shows its line, without tabs, and below it marks for the
    characters of its span. Both begin in the same column exactly if the number of the
    line has at most three digits. -/
theorem snippet_underlined {text file : String} {e : ConvertError}
    (hsize : text.utf8ByteSize < Span.limit) (h : Convert.source text file = .error e) :
    ∃ (span : Span) (cut : LineCut text span.start) (snippet : String), e.span? = some span ∧
      e.location? = some cut.location ∧ e.lineText? = some cut.lineText ∧
      format false e = file ++ ":" ++ cut.location.describe ++ " - error: " ++ e.summary ++
        snippet ∧
      IsLaidOut snippet (withoutTabs cut.lineText) (marksBelow span cut)
        (5 + max 3 (Nat.toDigits 10 cut.location.line).length) 8 ∧
      ((∃ column, IsLaidOut snippet (withoutTabs cut.lineText) (marksBelow span cut)
        column column) ↔ cut.location.line < 1000) := by
  obtain ⟨hfile, span, hspan, hfits, hplace⟩ := exists_span_of_source_error hsize h
  obtain ⟨left, right, htext, hstart⟩ := hfits.start
  obtain ⟨cut⟩ := hstart ▸ LineCut.exists_of_append htext
  obtain ⟨hlocation, hline⟩ := hplace cut
  obtain ⟨snippet, hsnippet, hlaid⟩ := snippet?_isLaidOut hspan hlocation hline
  refine ⟨span, cut, snippet, hspan, hlocation, hline, ?_, hlaid, aligned_iff hlaid⟩
  simp [format, ConvertError.origin?, hfile, hlocation, hsnippet, styled, ← String.toList_inj]

/-- A line with a tab and a letter of two bytes before the span. -/
theorem missingIndex_underlined :
    ∃ e, Convert.source "<?php\n\t'é'; $a[];" "page.php" = .error e ∧
      format false e = "page.php:2:7 - error: array access without an index is not supported" ++
        "\n    2       'é'; $a[];\n                 ~~~~" ∧
      ∃ (span : Span) (cut : LineCut "<?php\n\t'é'; $a[];" span.start) (snippet : String),
        e.span? = some span ∧ e.location? = some cut.location ∧
        format false e = "page.php" ++ ":" ++ cut.location.describe ++ " - error: " ++ e.summary ++
          snippet ∧
        ∃ column, IsLaidOut snippet (withoutTabs cut.lineText) (marksBelow span cut)
          column column := by
  have hsize : "<?php\n\t'é'; $a[];".utf8ByteSize < Span.limit := by decide +kernel
  have h : Convert.source "<?php\n\t'é'; $a[];" "page.php" = .error
      (.emit "page.php" (.missingIndex ⟨13, 17⟩) ⟨some ⟨2, 7⟩, some "\t'é'; $a[];"⟩) := by
    decide +kernel
  obtain ⟨span, cut, snippet, hspan, hlocation, -, hformat, -, haligned⟩ :=
    snippet_underlined hsize h
  have hline : 2 = cut.location.line := congrArg Location.line (Option.some.inj hlocation)
  exact ⟨_, h, by decide +kernel, span, cut, snippet, hspan, hlocation, hformat,
    haligned.2 (by omega)⟩

/-- A text that cannot be read from its line 1000 on. -/
def manyLines : String := String.ofList (openTag ++ List.replicate 999 '\n' ++ ['`'])

theorem source_of_scan_error {text : String} {error : ScanError}
    (h : Token.scan text = .error error) (file : String) :
    Convert.source text file = .error (.parse file (.scan error) (.ofSpan text error.span)) := by
  simp [Convert.source, Convert.parse, Parse.source, Parse.start, h, bind, Except.bind,
    ParseError.span]

theorem size_manyLines : manyLines.utf8ByteSize < Span.limit := by
  rw [manyLines, Text.utf8ByteSize_ofList]
  decide +kernel

theorem manyLines_refused :
    Convert.source manyLines "page.php" =
      .error (.parse "page.php" (.scan (.unrecognized "`" ⟨1004, 1005⟩))
        (.ofSpan manyLines ⟨1004, 1005⟩)) := by
  have hchars : Token.wideFrom .html 0 (openTag ++ List.replicate 999 '\n' ++ ['`']) =
      .error (.unrecognized "`" ⟨1004, 1005⟩) := by decide +kernel
  have hscan : Token.scan manyLines = .error (.unrecognized "`" ⟨1004, 1005⟩) := by
    rw [Token.scan_eq_scanWide size_manyLines.le, Token.scanWide, manyLines,
      String.toList_ofList, hchars]
    rfl
  exact source_of_scan_error hscan _

/-- The cut of the text where it cannot be read. -/
def manyLinesCut : LineCut manyLines 1004 where
  before := openTag ++ List.replicate 999 '\n'
  within := []
  rest := ['`']
  text_eq := by rw [manyLines, String.toList_ofList]; rfl
  offset_eq := by decide +kernel
  starts := by decide +kernel
  unbroken := rfl

/-- Some marks do not begin in the column of their line. -/
theorem not_always_aligned :
    ¬∀ (text file : String) (e : ConvertError), text.utf8ByteSize < Span.limit →
      Convert.source text file = .error e →
      ∃ (span : Span) (cut : LineCut text span.start) (snippet : String) (column : Nat),
        e.span? = some span ∧ e.location? = some cut.location ∧
        e.lineText? = some cut.lineText ∧ snippet? false e = some snippet ∧
        IsLaidOut snippet (withoutTabs cut.lineText) (marksBelow span cut) column column := by
  intro hall
  have hsize := size_manyLines
  obtain ⟨span, cut, snippet, column, hspan, hlocation, hline, hsnippet, hlaid⟩ :=
    hall _ _ _ hsize manyLines_refused
  obtain ⟨-, span', hspan', -, hplace⟩ := exists_span_of_source_error hsize manyLines_refused
  obtain rfl : ⟨1004, 1005⟩ = span' := Option.some.inj hspan'
  obtain rfl : ⟨1004, 1005⟩ = span := Option.some.inj hspan
  have heq : cut.location = manyLinesCut.location :=
    Option.some.inj (hlocation.symm.trans (hplace manyLinesCut).1)
  have hnumber : manyLinesCut.location.line = 1000 := by decide +kernel
  obtain ⟨found, hfound, hlaid'⟩ := snippet?_isLaidOut hspan hlocation hline
  obtain rfl : snippet = found := Option.some.inj (hsnippet.symm.trans hfound)
  have hlt := (aligned_iff hlaid').1 ⟨column, hlaid⟩
  rw [heq, hnumber] at hlt
  exact Nat.lt_irrefl _ hlt

end PhpScript.Report
