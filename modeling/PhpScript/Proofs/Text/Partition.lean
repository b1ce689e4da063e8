import Mathlib.Data.List.Induction
import PhpScript.Proofs.Text.Lines

/-!
# The lines that a text consists of

A text is its lines one after the other, each but the last one with what ends it
(`IsPartition`). The line map of a text has these lines, and a location of it
names the line that an offset is in and the characters before the offset on that
line (`LineMap.ofText_partitions`), if the text is shorter than `Span.limit` bytes.

An offset is given by the cut of the text at it, into what comes before and what
comes after. The line of a cut is found by going through the lines
(`TextLine.exists_of_append`), and there the cut is a `LineCut`.
-/

namespace PhpScript

open LineMap
open Text (byteLength)

/-! ## Partitions -/

/-- The ways in which a line ends. -/
inductive LineEnd
  | lineFeed
  /-- A carriage return and a line feed. -/
  | pair
  | carriageReturn
deriving DecidableEq, Repr

namespace LineEnd

/-- The characters that end the line. -/
def chars : LineEnd → List Char
  | lineFeed => ['\n']
  | pair => ['\r', '\n']
  | carriageReturn => ['\r']

/-- Whether a line can end so before `rest`: a carriage return before a line feed
    is only half of what ends the line. -/
def Precedes (e : LineEnd) (rest : List Char) : Prop :=
  e = carriageReturn → rest.head? ≠ some '\n'

theorem chars_ne_nil (e : LineEnd) : e.chars ≠ [] := by
  cases e <;> simp [chars]

theorem exists_head (e : LineEnd) : ∃ c ∈ e.chars.head?, isTerminator c := by
  cases e <;> simp [chars, isTerminator]

end LineEnd

/-- A line of a text with what ends it, which is nothing for the last line. -/
structure TextLine where
  content : List Char
  ending : Option LineEnd
deriving DecidableEq, Repr

/-- All characters of the line. -/
def TextLine.chars (l : TextLine) : List Char := l.content ++ (l.ending.map LineEnd.chars).getD []

/-- The text consists of the lines: no line has a terminator in it, and every line
    but the last one is ended once. -/
inductive IsPartition : (text : List Char) → List TextLine → Prop
  | last {content : List Char} : (∀ c ∈ content, isTerminator c = false) →
      IsPartition content [⟨content, none⟩]
  | ended {content rest : List Char} {e : LineEnd} {lines : List TextLine} :
      (∀ c ∈ content, isTerminator c = false) → e.Precedes rest → IsPartition rest lines →
      IsPartition (content ++ e.chars ++ rest) (⟨content, some e⟩ :: lines)

/-- The first location comes before the second. -/
def Location.Precedes (l m : Location) : Prop :=
  l.line < m.line ∨ l.line = m.line ∧ l.column < m.column

/-! ## Line ends -/

theorem LineMap.endsLine_eq_false {c : Char} {after : List Char} (h : isTerminator c = false) :
    endsLine c after = false := by
  by_contra hends
  cases (isTerminator_of_endsLine (by simpa using hends)).symm.trans h

theorem LineMap.lineEnds_of_plain {cs right : List Char} (h : ∀ c ∈ cs, isTerminator c = false) :
    lineEnds cs right = 0 := by
  induction cs with
  | nil => rfl
  | cons c cs ih =>
    rw [List.forall_mem_cons] at h
    rw [lineEnds, ih h.2, endsLine_eq_false h.1]
    rfl

namespace LineEnd

variable {e : LineEnd} {rest : List Char}

/-- What ends a line is one line end. -/
theorem lineEnds_chars (h : e.Precedes rest) : lineEnds e.chars rest = 1 := by
  cases e with
  | lineFeed | pair => simp [chars, lineEnds, endsLine]
  | carriageReturn => simpa [chars, lineEnds, endsLine] using h rfl

/-- No line end finishes before all of it is there. -/
theorem lineEnds_of_prefix {left right : List Char} (h : e.chars = left ++ right)
    (hright : right ≠ []) : lineEnds left (right ++ rest) = 0 := by
  have hleft (d : Char) (cs : List Char) (h : [d] = cs ++ right) : cs = [] ∧ right = [d] := by
    simpa [hright] using List.append_eq_singleton_iff.1 h.symm
  cases e with
  | lineFeed | carriageReturn => rw [(hleft _ _ h).1, lineEnds]
  | pair =>
    rcases List.cons_eq_append_iff.1 h with ⟨rfl, -⟩ | ⟨more, rfl, hmore⟩
    · rfl
    · obtain ⟨rfl, rfl⟩ := hleft _ _ hmore
      rfl

theorem startsLine_chars (h : e.Precedes rest) : startsLine e.chars rest := by
  cases e with
  | lineFeed | pair => rfl
  | carriageReturn => simpa [chars, startsLine, endsLine] using h rfl

end LineEnd

theorem LineMap.startsLine_append {before more after : List Char} (hmore : more ≠ []) :
    startsLine (before ++ more) after = startsLine more after := by
  rw [startsLine, startsLine, List.getLast?_append, List.getLast?_eq_some_getLast hmore]
  rfl

namespace IsPartition

variable {cs : List Char} {lines : List TextLine}

theorem ne_nil (h : IsPartition cs lines) : lines ≠ [] := by
  cases h <;> simp

theorem flatMap_chars (h : IsPartition cs lines) : lines.flatMap TextLine.chars = cs := by
  induction h with
  | last => simp [TextLine.chars]
  | ended _ _ _ ih => simp [TextLine.chars, ih]

theorem lineEnds_eq (h : IsPartition cs lines) : lineEnds cs [] + 1 = lines.length := by
  induction h with
  | last hplain => rw [lineEnds_of_plain hplain]; rfl
  | @ended content rest e lines hplain hends _ ih =>
    rw [List.append_assoc, lineEnds_append, lineEnds_append, lineEnds_of_plain hplain,
      List.append_nil, e.lineEnds_chars hends, List.length_cons, ← ih]
    omega

/-- The first line of a text that begins with a line feed is empty. -/
theorem of_lineFeed (h : IsPartition ('\n' :: cs) lines) :
    ∃ more, lines = ⟨[], some .lineFeed⟩ :: more ∧ IsPartition cs more := by
  generalize htext : '\n' :: cs = text at h
  cases h with
  | last hplain =>
    subst htext
    exact absurd (hplain '\n' List.mem_cons_self) (by decide)
  | @ended content rest e lines hplain _ hrest =>
    cases content with
    | cons c content =>
      obtain rfl : '\n' = c := (List.cons.inj htext).1
      exact absurd (hplain '\n' List.mem_cons_self) (by decide)
    | nil =>
      cases e with
      | lineFeed =>
        cases htext
        exact ⟨lines, rfl, hrest⟩
      | pair | carriageReturn => cases htext

/-- A character that ends no line goes to the first line. -/
theorem cons {c : Char} (hc : isTerminator c = false) (h : IsPartition cs lines) :
    ∃ lines, IsPartition (c :: cs) lines := by
  cases h with
  | last hplain => exact ⟨_, .last (List.forall_mem_cons.2 ⟨hc, hplain⟩)⟩
  | ended hplain hends hrest =>
    exact ⟨_, .ended (List.forall_mem_cons.2 ⟨hc, hplain⟩) hends hrest⟩

/-- Another line may come first, without content. -/
theorem ended_first {e : LineEnd} (hends : e.Precedes cs) (h : IsPartition cs lines) :
    IsPartition (e.chars ++ cs) (⟨[], some e⟩ :: lines) :=
  .ended (List.forall_mem_nil _) hends h

theorem exists_of_text (cs : List Char) : ∃ lines, IsPartition cs lines := by
  induction cs with
  | nil => exact ⟨_, .last (by simp)⟩
  | cons c cs ih =>
    obtain ⟨lines, hlines⟩ := ih
    cases hc : isTerminator c with
    | false => exact hlines.cons hc
    | true =>
      have hc : c = '\n' ∨ c = '\r' := by simpa [isTerminator] using hc
      rcases hc with rfl | rfl
      · exact ⟨_, ended_first (e := .lineFeed) (by simp [LineEnd.Precedes]) hlines⟩
      · by_cases hhead : cs.head? = some '\n'
        · -- The line feed that ends the first line so far makes a pair with it.
          obtain ⟨rest, rfl⟩ := List.head?_eq_some_iff.1 hhead
          obtain ⟨more, -, hmore⟩ := hlines.of_lineFeed
          exact ⟨_, ended_first (e := .pair) (by simp [LineEnd.Precedes]) hmore⟩
        · exact ⟨_, ended_first (e := .carriageReturn) (fun _ => hhead) hlines⟩

/-! ## The line of a cut -/

/-- Before the end of a line, no line end is finished. -/
theorem lineEnds_of_line {content left right : List Char} {e : LineEnd}
    (hplain : ∀ c ∈ content, isTerminator c = false) (h : content ++ e.chars = left ++ right)
    (hright : right ≠ []) (rest : List Char) : lineEnds left (right ++ rest) = 0 := by
  rcases List.append_eq_append_iff.1 h with ⟨more, rfl, hmore⟩ | ⟨more, rfl, -⟩
  · rw [lineEnds_append, lineEnds_of_plain hplain, Nat.zero_add]
    exact e.lineEnds_of_prefix hmore hright
  · exact lineEnds_of_plain fun c hc => hplain c (List.mem_append_left _ hc)

/-- A cut in the first line has no line end before it. -/
theorem lineEnds_first {line : TextLine} {within right : List Char}
    (h : IsPartition (within ++ right) (line :: lines)) (hwithin : within <+: line.chars)
    (hlast : within = line.chars → lines = []) : lineEnds within right = 0 := by
  generalize htext : within ++ right = text at h
  cases h with
  | last hplain =>
    subst htext
    exact lineEnds_of_plain fun c hc => hplain c (List.mem_append_left _ hc)
  | @ended content rest e lines hplain _ hrest =>
    obtain ⟨more, hmore⟩ := hwithin
    have hne : more ≠ [] := by
      rintro rfl
      exact hrest.ne_nil (hlast (by simpa using hmore))
    have hchars : content ++ e.chars = within ++ more := hmore.symm
    rw [hchars, List.append_assoc, List.append_cancel_left_eq] at htext
    rw [htext]
    exact lineEnds_of_line hplain hchars hne rest

/-- A line without characters is the last one. -/
theorem eq_nil_of_chars {line : TextLine} (h : IsPartition cs (line :: lines))
    (hnil : line.chars = []) : lines = [] := by
  cases h with
  | last => rfl
  | @ended content rest e lines _ _ _ =>
    exact absurd (List.append_eq_nil_iff.1 hnil).2 e.chars_ne_nil

theorem takeWhile_first {line : TextLine} (h : IsPartition cs (line :: lines)) :
    cs.takeWhile (!isTerminator ·) = line.content := by
  cases h with
  | last hplain => exact List.takeWhile_eq_self_iff.2 fun c hc => by simp [hplain c hc]
  | @ended content rest e lines hplain _ _ =>
    obtain ⟨c, hc, hterminator⟩ := e.exists_head
    rw [List.append_assoc, takeWhile_of_plain hplain]
    intro d hd
    obtain rfl : c = d := by simpa [List.head?_append, Option.mem_def.1 hc] using hd
    exact hterminator

/-- After some of its lines, the text goes on with the others. -/
theorem exists_rest {before after : List TextLine} (h : IsPartition cs (before ++ after))
    (hne : after ≠ []) :
    ∃ rest, cs = before.flatMap TextLine.chars ++ rest ∧ IsPartition rest after ∧
      startsLine (before.flatMap TextLine.chars) rest ∧
      lineEnds (before.flatMap TextLine.chars) rest = before.length := by
  induction before generalizing cs with
  | nil => exact ⟨cs, rfl, h, rfl, rfl⟩
  | cons line before ih =>
    generalize hlines : line :: before ++ after = lines at h
    cases h with
    | last => simp [hne] at hlines
    | @ended content rest e lines hplain hends hrest =>
      cases hlines
      obtain ⟨right, rfl, hright, hstarts, hcount⟩ := ih hrest
      have hchars : TextLine.chars ⟨content, some e⟩ = content ++ e.chars := rfl
      refine ⟨right, by simp [hchars], hright, ?_, ?_⟩
      · rw [List.flatMap_cons]
        by_cases hnil : before.flatMap TextLine.chars = []
        · rw [hnil, List.append_nil, hchars, startsLine_append e.chars_ne_nil]
          rw [hnil, List.nil_append] at hends
          exact e.startsLine_chars hends
        · rwa [startsLine_append hnil]
      · rw [List.flatMap_cons, lineEnds_append, hchars, lineEnds_append, lineEnds_of_plain hplain,
          e.lineEnds_chars hends, hcount, List.length_cons]
        omega

end IsPartition

/-- A cut of the characters of some lines is before the end of one of them, or at
    the end of the last one. -/
theorem TextLine.exists_of_append {lines : List TextLine} {left right : List Char}
    (hne : lines ≠ []) (h : lines.flatMap chars = left ++ right) :
    ∃ before line after within, lines = before ++ line :: after ∧ within <+: line.chars ∧
      left = before.flatMap chars ++ within ∧ (within = line.chars → after = []) := by
  induction lines generalizing left with
  | nil => exact absurd rfl hne
  | cons line lines ih =>
    rw [List.flatMap_cons] at h
    by_cases hprefix : line.chars <+: left
    · obtain ⟨left, rfl⟩ := hprefix
      rw [List.append_assoc, List.append_cancel_left_eq] at h
      by_cases hlines : lines = []
      · subst hlines
        obtain ⟨rfl, -⟩ := List.append_eq_nil_iff.1 h.symm
        exact ⟨[], line, [], line.chars, rfl, List.prefix_refl _, by simp, fun _ => rfl⟩
      · obtain ⟨before, found, after, within, rfl, hwithin, rfl, hlast⟩ := ih hlines h
        exact ⟨line :: before, found, after, within, rfl, hwithin, by simp, hlast⟩
    · rcases List.append_eq_append_iff.1 h with ⟨more, hmore, -⟩ | ⟨more, hmore, -⟩
      · exact absurd ⟨more, hmore.symm⟩ hprefix
      · refine ⟨[], line, lines, left, rfl, ⟨more, hmore.symm⟩, rfl, fun heq => ?_⟩
        exact absurd (heq ▸ List.prefix_refl _) hprefix

/-! ## The line map -/

namespace LineMap

variable {text : String} {before after : List TextLine} {line : TextLine}

/-- A cut in a line of the text, as a cut of the text. -/
theorem exists_lineCut (h : IsPartition text.toList (before ++ line :: after))
    {within : List Char} (hwithin : within <+: line.chars)
    (hlast : within = line.chars → after = []) :
    ∃ cut : LineCut text (byteLength (before.flatMap TextLine.chars ++ within)),
      cut.location = ⟨before.length + 1, within.length + 1⟩ ∧
      (within = [] → cut.lineText = String.ofList line.content) := by
  obtain ⟨rest, htext, hrest, hstarts, hcount⟩ := h.exists_rest (by simp)
  obtain ⟨right, rfl⟩ : within <+: rest := by
    rw [← hrest.flatMap_chars]
    exact hwithin.trans (List.prefix_append _ _)
  have hbroken := hrest.lineEnds_first hwithin hlast
  refine ⟨⟨_, within, right, htext, by simp, hstarts, hbroken⟩, ?_, ?_⟩
  · simp only [LineCut.location, lineEnds_append, hcount, hbroken, Nat.add_zero, Nat.add_comm]
  · rintro rfl
    exact congrArg String.ofList hrest.takeWhile_first

theorem lineIndex_of_le {offset : Nat} (hsize : text.utf8ByteSize ≤ Span.limit)
    (h : text.utf8ByteSize ≤ offset) :
    (ofText text).lineIndex offset = (ofText text).lineCount - 1 := by
  have hall : ∀ start ∈ (ofText text).starts, decide (start ≤ offset) := by
    intro start hstart
    rw [starts_ofText hsize] at hstart
    rcases List.mem_cons.1 hstart with rfl | hstart
    · simp
    · have hle := le_of_mem_startsAfter hstart
      rw [Nat.zero_add, ← Text.utf8ByteSize_eq] at hle
      exact decide_eq_true (Nat.le_trans hle h)
  rw [lineIndex, List.takeWhile_eq_self_iff.2 hall, lineCount]

/-- Every offset at or after the end of the text is taken for the end. -/
theorem location_of_le {offset : Nat} (hsize : text.utf8ByteSize ≤ Span.limit)
    (h : text.utf8ByteSize ≤ offset) :
    (ofText text).location text offset = (ofText text).location text text.utf8ByteSize := by
  simp only [location, lineIndex_of_le hsize h, lineIndex_of_le hsize (Nat.le_refl _),
    Nat.min_eq_right h, Nat.min_self]

theorem lineCount_eq {lines : List TextLine} (h : IsPartition text.toList lines) :
    (ofText text).lineCount = lines.length := by
  rw [← h.lineEnds_eq, lineCount, ofText, List.length_cons, List.length_map,
    startsAfter_eq_startsIn, length_startsIn]

theorem lineText?_eq {lines : List TextLine} (hsize : text.utf8ByteSize ≤ Span.limit)
    (h : IsPartition text.toList lines) (i : Nat) :
    (ofText text).lineText? text (i + 1) =
      lines[i]?.map fun line => String.ofList line.content := by
  cases hline : lines[i]? with
  | none =>
    have hnone : (ofText text).starts[i]? = none := by
      rw [List.getElem?_eq_none_iff] at hline ⊢
      exact Nat.le_trans (Nat.le_of_eq (lineCount_eq h)) hline
    simp [lineText?, hnone]
  | some line =>
    obtain ⟨hi, rfl⟩ := List.getElem?_eq_some_iff.1 hline
    have hsplit : lines = lines.take i ++ lines[i] :: lines.drop (i + 1) := by
      rw [← List.drop_eq_getElem_cons, List.take_append_drop]
    rw [hsplit] at h
    obtain ⟨rest, -, hrest, -⟩ := h.exists_rest (List.cons_ne_nil _ _)
    obtain ⟨cut, hlocation, htext⟩ := exists_lineCut h List.nil_prefix fun hnil =>
      hrest.eq_nil_of_chars hnil.symm
    have hfound := cut.lineText?_eq hsize
    rw [hlocation, htext rfl, List.length_take_of_le (Nat.le_of_lt hi)] at hfound
    exact hfound

/-- Of two cuts in the same lines, the one with more bytes before it is in a later line, or
    comes later in the same line. -/
theorem precedes_of_lt {before' after' : List TextLine} {line' : TextLine}
    {within within' : List Char}
    (hlines : before ++ line :: after = before' ++ line' :: after')
    (hwithin : within <+: line.chars) (hwithin' : within' <+: line'.chars)
    (hlt : byteLength (before.flatMap TextLine.chars ++ within) <
      byteLength (before'.flatMap TextLine.chars ++ within')) :
    Location.Precedes ⟨before.length + 1, within.length + 1⟩
      ⟨before'.length + 1, within'.length + 1⟩ := by
  -- What is in the lines before a cut comes before it, and so does what is in its own line.
  have hend {line : TextLine} {within : List Char} (h : within <+: line.chars) :
      byteLength within ≤ byteLength line.chars := by
    obtain ⟨more, hmore⟩ := h
    rw [← hmore, Text.byteLength_append]
    exact Nat.le_add_right _ _
  rcases Nat.lt_trichotomy before.length before'.length with h | h | h
  · exact .inl (Nat.succ_lt_succ h)
  · obtain ⟨rfl, htail⟩ := List.append_inj hlines h
    obtain ⟨rfl, -⟩ := List.cons.inj htail
    refine .inr ⟨rfl, Nat.succ_lt_succ (Nat.lt_of_not_le fun hle => ?_)⟩
    obtain ⟨more, rfl⟩ := List.prefix_of_prefix_length_le hwithin' hwithin hle
    simp only [Text.byteLength_append] at hlt
    omega
  · obtain ⟨more, rfl⟩ : ∃ more, before = before' ++ line' :: more := by
      rcases List.append_eq_append_iff.1 hlines with ⟨more, rfl, -⟩ | ⟨more, rfl, hmore⟩
      · rw [List.length_append] at h
        omega
      · cases more with
        | nil => simp at h
        | cons first more =>
          obtain ⟨rfl, -⟩ := List.cons.inj hmore
          exact ⟨more, rfl⟩
    have hle := hend hwithin'
    simp only [List.flatMap_append, List.flatMap_cons, Text.byteLength_append] at hlt
    omega

/-- The line map of a text tells the lines of the text. -/
structure Tells (m : LineMap) (text : String) (lines : List TextLine) : Prop where
  partition : IsPartition text.toList lines
  count : m.lineCount = lines.length
  noLine : m.lineText? text 0 = none
  content : ∀ i, m.lineText? text (i + 1) = lines[i]?.map fun line => String.ofList line.content
  /-- A location gives the line that an offset is in, the last line for the end of the text,
      and the characters before the offset on it. -/
  location : ∀ left right, text.toList = left ++ right →
    ∃ before line after within, lines = before ++ line :: after ∧ within <+: line.chars ∧
      left = before.flatMap TextLine.chars ++ within ∧ (within = line.chars → after = []) ∧
      m.location text (byteLength left) = ⟨before.length + 1, within.length + 1⟩
  beyond : ∀ offset, text.utf8ByteSize ≤ offset →
    m.location text offset = m.location text text.utf8ByteSize
  /-- Later offsets have later locations, up to the end of the text. -/
  increasing : ∀ left right left' right', text.toList = left ++ right →
    text.toList = left' ++ right' → byteLength left < byteLength left' →
      (m.location text (byteLength left)).Precedes (m.location text (byteLength left'))

/-- The line map of a text tells its lines, if the text is shorter than `Span.limit` bytes. -/
theorem ofText_partitions (text : String) (hsize : text.utf8ByteSize < Span.limit) :
    ∃ lines, (ofText text).Tells text lines := by
  obtain ⟨lines, hlines⟩ := IsPartition.exists_of_text text.toList
  have hfind : ∀ left right, text.toList = left ++ right →
      ∃ before line after within, lines = before ++ line :: after ∧ within <+: line.chars ∧
        left = before.flatMap TextLine.chars ++ within ∧ (within = line.chars → after = []) ∧
        (ofText text).location text (byteLength left) =
          ⟨before.length + 1, within.length + 1⟩ := by
    intro left right hcut
    obtain ⟨before, line, after, within, rfl, hwithin, rfl, hlast⟩ :=
      TextLine.exists_of_append hlines.ne_nil (hlines.flatMap_chars.trans hcut)
    obtain ⟨cut, hlocation, -⟩ := exists_lineCut hlines hwithin hlast
    exact ⟨before, line, after, within, rfl, hwithin, rfl, hlast,
      (cut.location_eq hsize).trans hlocation⟩
  refine ⟨lines, hlines, lineCount_eq hlines, rfl, lineText?_eq hsize.le hlines, hfind,
    fun _ => location_of_le hsize.le, ?_⟩
  intro left right left' right' hleft hleft' hlt
  obtain ⟨before, line, after, within, hsplit, hwithin, rfl, -, hlocation⟩ := hfind _ _ hleft
  obtain ⟨before', line', after', within', hsplit', hwithin', rfl, -, hlocation'⟩ :=
    hfind _ _ hleft'
  rw [hlocation, hlocation']
  exact precedes_of_lt (hsplit.symm.trans hsplit') hwithin hwithin' hlt

/-- The first carriage return ends a line by itself, the second one with the line feed. -/
theorem partitions_carriageReturns :
    "é\r\r\nb".utf8ByteSize < Span.limit ∧ (ofText "é\r\r\nb").lineCount = 3 ∧
      (ofText "é\r\r\nb").location "é\r\r\nb" 4 = ⟨2, 2⟩ ∧
      ∃ lines, (ofText "é\r\r\nb").Tells "é\r\r\nb" lines := by
  have hsize : "é\r\r\nb".utf8ByteSize < Span.limit := by decide +kernel
  exact ⟨hsize, by decide, by decide, ofText_partitions "é\r\r\nb" hsize⟩

/-- At the end of a line of letters, the column is one more than their number, as 32 bits
    hold it. -/
theorem location_replicate {n : Nat} (hn : n ≤ Span.limit) :
    (ofText (String.ofList (List.replicate n 'a'))).location
      (String.ofList (List.replicate n 'a')) n = ⟨1, Span.wrap (1 + n)⟩ := by
  have hbytes : byteLength (List.replicate n 'a') = n := Text.byteLength_replicate n rfl
  have hplain : lineEnds (List.replicate n 'a') [] = 0 :=
    lineEnds_of_plain fun c hc => by rw [List.eq_of_mem_replicate hc]; rfl
  let cut : LineCut (String.ofList (List.replicate n 'a')) n :=
    ⟨[], List.replicate n 'a', [], by simp, by simp [hbytes], rfl, hplain⟩
  have hlocation : cut.location = ⟨1, 1 + n⟩ := by
    simp [LineCut.location, cut, hplain]
  rw [cut.location_eq_wrap (by rwa [Text.utf8ByteSize_ofList, hbytes]), hlocation]
  rfl

/-- In a text of `Span.limit` bytes the line map can come to no column at all. -/
theorem not_always_partitions :
    ¬∀ text : String, text.utf8ByteSize ≤ Span.limit →
      ∃ lines, (ofText text).Tells text lines := by
  intro h
  obtain ⟨n, hn⟩ : ∃ n, n = Span.limit := ⟨_, rfl⟩
  have hbytes : byteLength (List.replicate n 'a') = n := Text.byteLength_replicate n rfl
  obtain ⟨lines, htells⟩ := h (String.ofList (List.replicate n 'a'))
    (by rw [Text.utf8ByteSize_ofList, hbytes, hn])
  obtain ⟨before, line, after, within, -, -, -, -, hlocation⟩ :=
    htells.location (List.replicate n 'a') [] (by simp)
  rw [hbytes, location_replicate hn.le, hn, Nat.add_comm 1] at hlocation
  have hcolumn : Span.wrap (Span.limit + 1) = within.length + 1 :=
    congrArg Location.column hlocation
  rw [Span.wrap, Nat.mod_self] at hcolumn
  cases hcolumn

end LineMap

end PhpScript
