import Mathlib.Data.List.Induction
import Mathlib.Data.List.TakeWhile
import PhpScript.Proofs.Literal.Decoding
import PhpScript.Text.LineMap

/-!
# Lines of a text

What a line and a column are, told without a line map: the line ends of a text
are its line feeds, its carriage returns with a line feed after them, and its
other carriage returns (`LineMap.endsLine`); a `LineCut` cuts a text where the
line of an offset starts and at the offset, and so gives the number of the line,
the column and the text of the line.

`LineCut.location_eq` and `LineCut.lineText?_eq` say that the line map agrees, as long
as 32 bits hold the numbers that it gives.
-/

namespace PhpScript

open Text (byteLength)

namespace LineMap

/-! ## Line ends -/

/-- Whether a line end finishes with the character `c`, which `after` follows: a
    line feed, or a carriage return that is not the first half of a pair. -/
def endsLine (c : Char) (after : List Char) : Bool :=
  c == '\n' || c == '\r' && after.head? != some '\n'

/-- The number of line ends that finish in `left`, of a text that goes on with `right`. -/
def lineEnds : (left right : List Char) → Nat
  | [], _ => 0
  | c :: left, right => lineEnds left right + if endsLine c (left ++ right) then 1 else 0

/-- Whether a line starts after `before` and with `after`. -/
def startsLine (before after : List Char) : Bool := before.getLast?.all (endsLine · after)

/-- The offsets just after the line ends that finish in `left`, which begins at
    `offset` and goes on with `right`. -/
def startsIn : (left right : List Char) → (offset : Nat) → List Nat
  | [], _, _ => []
  | c :: left, right, offset =>
    if endsLine c (left ++ right) then
      (offset + c.utf8Size) :: startsIn left right (offset + c.utf8Size)
    else
      startsIn left right (offset + c.utf8Size)

theorem isTerminator_of_endsLine {c : Char} {after : List Char} (h : endsLine c after) :
    isTerminator c := by
  simp only [endsLine, Bool.or_eq_true, Bool.and_eq_true] at h
  simpa [isTerminator] using h.imp_right And.left

theorem endsLine_eq (c : Char) (after : List Char) :
    (isTerminator c && !(c == '\r' && after.head? == some '\n')) = endsLine c after := by
  by_cases hn : c = '\n'
  · simp [isTerminator, endsLine, hn]
  · have hn : (c == '\n') = false := beq_false_of_ne hn
    cases hr : c == '\r' <;> simp [isTerminator, endsLine, hn, hr, bne]

theorem startsAfter_cons (c : Char) (cs : List Char) (offset : Nat) :
    startsAfter (c :: cs) offset =
      if endsLine c cs then (offset + c.utf8Size) :: startsAfter cs (offset + c.utf8Size)
      else startsAfter cs (offset + c.utf8Size) := by
  rw [startsAfter, endsLine_eq]

theorem startsAfter_append (left right : List Char) (offset : Nat) :
    startsAfter (left ++ right) offset =
      startsIn left right offset ++ startsAfter right (offset + byteLength left) := by
  induction left generalizing offset with
  | nil => rfl
  | cons c left ih =>
    rw [List.cons_append, startsAfter_cons, startsIn, ih, Text.byteLength_cons, Nat.add_assoc]
    split <;> rfl

theorem lt_of_mem_startsAfter {cs : List Char} {offset start : Nat}
    (h : start ∈ startsAfter cs offset) : offset < start := by
  induction cs generalizing offset with
  | nil => cases h
  | cons c cs ih =>
    have hc := c.utf8Size_pos
    rw [startsAfter_cons] at h
    split at h
    · rcases List.mem_cons.1 h with rfl | h
      · omega
      · exact Nat.lt_trans (by omega) (ih h)
    · exact Nat.lt_trans (by omega) (ih h)

theorem le_of_mem_startsIn {left right : List Char} {offset start : Nat}
    (h : start ∈ startsIn left right offset) : start ≤ offset + byteLength left := by
  induction left generalizing offset with
  | nil => cases h
  | cons c left ih =>
    rw [Text.byteLength_cons, ← Nat.add_assoc]
    rw [startsIn] at h
    split at h
    · rcases List.mem_cons.1 h with rfl | h
      · exact Nat.le_add_right _ _
      · exact ih h
    · exact ih h

theorem startsAfter_eq_startsIn (cs : List Char) (offset : Nat) :
    startsAfter cs offset = startsIn cs [] offset := by
  have heq := startsAfter_append cs [] offset
  rwa [List.append_nil, startsAfter, List.append_nil] at heq

theorem le_of_mem_startsAfter {cs : List Char} {offset start : Nat}
    (h : start ∈ startsAfter cs offset) : start ≤ offset + byteLength cs :=
  le_of_mem_startsIn (startsAfter_eq_startsIn cs offset ▸ h)

@[simp] theorem length_startsIn (left right : List Char) (offset : Nat) :
    (startsIn left right offset).length = lineEnds left right := by
  induction left generalizing offset with
  | nil => rfl
  | cons c left ih =>
    rw [startsIn, lineEnds]
    split <;> simp [ih]

theorem startsIn_append (left mid right : List Char) (offset : Nat) :
    startsIn (left ++ mid) right offset =
      startsIn left (mid ++ right) offset ++ startsIn mid right (offset + byteLength left) := by
  induction left generalizing offset with
  | nil => rfl
  | cons c left ih =>
    rw [List.cons_append, startsIn, startsIn, ih, List.append_assoc, Text.byteLength_cons,
      Nat.add_assoc]
    split <;> rfl

theorem lineEnds_le_length (left right : List Char) : lineEnds left right ≤ left.length := by
  induction left with
  | nil => exact Nat.le_refl _
  | cons c left ih =>
    rw [lineEnds, List.length_cons]
    split <;> omega

/-- The starts of the lines fit into 32 bits if the text does. -/
theorem starts_ofText {text : String} (hsize : text.utf8ByteSize ≤ Span.limit) :
    (ofText text).starts = 0 :: startsAfter text.toList 0 := by
  have hheld : ∀ start ∈ startsAfter text.toList 0, Span.wrap start = start := by
    intro start hstart
    have hle := le_of_mem_startsAfter hstart
    rw [Nat.zero_add, ← Text.utf8ByteSize_eq] at hle
    exact Span.wrap_of_le (Nat.le_trans hle hsize)
  rw [ofText, List.map_congr_left hheld, List.map_id']

theorem lineEnds_append (left mid right : List Char) :
    lineEnds (left ++ mid) right = lineEnds left (mid ++ right) + lineEnds mid right := by
  rw [← length_startsIn _ _ 0, startsIn_append, List.length_append, length_startsIn,
    length_startsIn]

/-- The last line start up to the start of a line is that start. -/
theorem getElem?_startsIn {before after : List Char} (h : startsLine before after) :
    (0 :: startsIn before after 0)[lineEnds before after]? = some (byteLength before) := by
  cases hlast : before using List.reverseRecOn with
  | nil => rfl
  | append_singleton left c =>
    have hends : endsLine c after := by simpa [startsLine, hlast] using h
    have hstart : startsIn (left ++ [c]) after 0 =
        startsIn left (c :: after) 0 ++ [byteLength (left ++ [c])] := by
      simp [startsIn_append, startsIn, hends]
    rw [lineEnds_append, hstart]
    simp [lineEnds, hends]

/-! ## The text of a line -/

/-- The text that no line end finishes in has no terminator in it, except for the
    first half of a pair at its end. -/
theorem eq_of_lineEnds_eq_zero {cs right : List Char} (h : lineEnds cs right = 0) :
    (∀ c ∈ cs, isTerminator c = false) ∨
      ∃ init, cs = init ++ ['\r'] ∧ (∀ c ∈ init, isTerminator c = false) ∧
        right.head? = some '\n' := by
  induction cs with
  | nil => exact .inl (by simp)
  | cons c cs ih =>
    have hcs : lineEnds cs right = 0 := by
      rw [lineEnds] at h
      omega
    have hc : endsLine c (cs ++ right) = false := by
      by_contra hc
      simp [lineEnds, hc] at h
    -- A terminator that ends no line is a carriage return before a line feed.
    have hpair (ht : isTerminator c) : c = '\r' ∧ (cs ++ right).head? = some '\n' := by
      rw [← endsLine_eq, ht] at hc
      simpa using hc
    rcases ih hcs with hplain | ⟨init, rfl, hplain, hright⟩
    · cases ht : isTerminator c with
      | false => exact .inl (List.forall_mem_cons.2 ⟨ht, hplain⟩)
      | true =>
        obtain ⟨rfl, hhead⟩ := hpair ht
        cases cs with
        | nil => exact .inr ⟨[], rfl, by simp, hhead⟩
        | cons d cs =>
          cases hhead
          exact absurd (hplain '\n' (by simp)) (by decide)
    · refine .inr ⟨c :: init, rfl, List.forall_mem_cons.2 ⟨?_, hplain⟩, hright⟩
      by_contra ht
      obtain ⟨-, hhead⟩ := hpair (by simpa using ht)
      cases init with
      | nil => cases hhead
      | cons d init =>
        cases hhead
        exact absurd (hplain '\n' (by simp)) (by decide)

theorem takeWhile_of_plain {cs rest : List Char} (hcs : ∀ c ∈ cs, isTerminator c = false)
    (hrest : ∀ c ∈ rest.head?, isTerminator c) :
    (cs ++ rest).takeWhile (!isTerminator ·) = cs := by
  rw [List.takeWhile_append_of_pos (by simpa using hcs)]
  cases rest with
  | nil => simp
  | cons c rest => simp [hrest c rfl]

theorem trimTerminators_of_plain {cs ends : List Char} (hcs : ∀ c ∈ cs, isTerminator c = false)
    (hends : ∀ c ∈ ends, isTerminator c) :
    trimTerminators (String.ofList (cs ++ ends)) = String.ofList cs := by
  have hdrop : cs.reverse.dropWhile isTerminator = cs.reverse := by
    rw [List.dropWhile_eq_self_iff]
    intro hlen
    simpa using hcs _ (List.mem_reverse.1 (List.getElem_mem hlen))
  rw [trimTerminators, String.toList_ofList, List.reverse_append,
    List.dropWhile_append_of_pos (by simpa using hends), hdrop, List.reverse_reverse]

/-- The next line start is where the line with `left` in it ends, and what is
    trimmed of the line is its terminator. -/
theorem exists_lineEnd (left right : List Char) (offset : Nat) (h : lineEnds left right = 0) :
    ∃ mid rest, right = mid ++ rest ∧
      (startsAfter right offset).head?.getD (offset + byteLength right) =
        offset + byteLength mid ∧
      trimTerminators (String.ofList (left ++ mid)) =
        String.ofList ((left ++ right).takeWhile (!isTerminator ·)) := by
  induction right generalizing left offset with
  | nil =>
    refine ⟨[], [], rfl, rfl, ?_⟩
    rcases eq_of_lineEnds_eq_zero h with hplain | ⟨_, _, _, hright⟩
    · rw [trimTerminators_of_plain hplain (by simp), takeWhile_of_plain hplain (by simp)]
    · cases hright
  | cons c right ih =>
    rw [startsAfter_cons]
    split
    · next hends =>
      refine ⟨[c], right, rfl, by simp, ?_⟩
      have hc := isTerminator_of_endsLine hends
      rcases eq_of_lineEnds_eq_zero h with hplain | ⟨init, rfl, hplain, hright⟩
      · rw [trimTerminators_of_plain hplain (by simpa using hc),
          takeWhile_of_plain hplain (by simpa using hc)]
      · rw [List.append_assoc, List.append_assoc,
          trimTerminators_of_plain hplain (by simpa [isTerminator] using hc),
          takeWhile_of_plain hplain (by simp [isTerminator])]
    · next hends =>
      have hleft : lineEnds (left ++ [c]) right = 0 := by
        rw [lineEnds_append]
        simpa [lineEnds, hends] using h
      obtain ⟨mid, rest, rfl, hstart, htrim⟩ := ih (left ++ [c]) (offset + c.utf8Size) hleft
      refine ⟨c :: mid, rest, rfl, ?_, ?_⟩
      · rw [Text.byteLength_cons, Text.byteLength_cons, ← Nat.add_assoc, ← Nat.add_assoc, hstart]
      · rw [List.append_assoc, List.append_assoc] at htrim
        exact htrim

end LineMap

/-! ## Cuts -/

open LineMap

/-- A text, cut where the line of an offset starts and at the offset. -/
structure LineCut (text : String) (offset : Nat) where
  /-- The lines before the line of the offset. -/
  before : List Char
  /-- The characters from the start of the line to the offset. -/
  within : List Char
  /-- What follows the offset. -/
  rest : List Char
  text_eq : text.toList = before ++ (within ++ rest)
  offset_eq : byteLength before + byteLength within = offset
  starts : startsLine before (within ++ rest)
  /-- No line end finishes between the start of the line and the offset. -/
  unbroken : lineEnds within rest = 0

namespace LineCut

variable {text : String} {offset : Nat} (cut : LineCut text offset)

/-- One more than the line ends that finish at or before the offset, and one more
    than the characters from the start of the line to it. -/
def location : Location :=
  ⟨1 + lineEnds (cut.before ++ cut.within) cut.rest, 1 + cut.within.length⟩

/-- The line of the offset without its terminator. -/
def lineText : String :=
  String.ofList ((cut.within ++ cut.rest).takeWhile (!isTerminator ·))

/-- A text can be cut at each boundary of its characters. -/
theorem exists_of_append {left right : List Char} (h : text.toList = left ++ right) :
    Nonempty (LineCut text (byteLength left)) := by
  obtain ⟨before, within, rfl, hstarts, hunbroken⟩ : ∃ before within, left = before ++ within ∧
      startsLine before (within ++ right) ∧ lineEnds within right = 0 := by
    clear h
    induction left using List.reverseRecOn generalizing right with
    | nil => exact ⟨[], [], rfl, rfl, rfl⟩
    | append_singleton left c ih =>
      cases hends : endsLine c right with
      | true => exact ⟨left ++ [c], [], by simp, by simpa [startsLine] using hends, rfl⟩
      | false =>
        obtain ⟨before, within, rfl, hstarts, hunbroken⟩ := @ih (c :: right)
        refine ⟨before, within ++ [c], by simp, by simpa using hstarts, ?_⟩
        rw [lineEnds_append]
        simpa [lineEnds, hends] using hunbroken
  exact ⟨⟨before, within, right, by rw [h, List.append_assoc], by simp, hstarts, hunbroken⟩⟩

theorem lineEnds_eq : lineEnds (cut.before ++ cut.within) cut.rest =
    lineEnds cut.before (cut.within ++ cut.rest) := by
  rw [lineEnds_append, cut.unbroken, Nat.add_zero]

section

variable (hsize : text.utf8ByteSize ≤ Span.limit)

include hsize

/-- The line starts of the text: those up to the offset, and those after it. -/
theorem starts_eq : (ofText text).starts =
    (0 :: startsIn cut.before (cut.within ++ cut.rest) 0) ++ startsAfter cut.rest offset := by
  have hnone : startsIn cut.within cut.rest (byteLength cut.before) = [] :=
    List.eq_nil_of_length_eq_zero (by rw [length_startsIn, cut.unbroken])
  rw [starts_ofText hsize, cut.text_eq, startsAfter_append, startsAfter_append, Nat.zero_add, hnone,
    cut.offset_eq]
  rfl

theorem lineIndex_eq :
    (ofText text).lineIndex offset = lineEnds (cut.before ++ cut.within) cut.rest := by
  have hin : ∀ start ∈ 0 :: startsIn cut.before (cut.within ++ cut.rest) 0,
      decide (start ≤ offset) := by
    intro start hstart
    rcases List.mem_cons.1 hstart with rfl | hstart
    · simp
    · have hle := le_of_mem_startsIn hstart
      have := cut.offset_eq
      simp
      omega
  have hafter : (startsAfter cut.rest offset).takeWhile (· ≤ offset) = [] := by
    rw [List.takeWhile_eq_nil_iff]
    intro hlen
    have := lt_of_mem_startsAfter (List.getElem_mem hlen)
    simpa using this
  rw [lineIndex, cut.starts_eq hsize, List.takeWhile_append_of_pos hin, hafter, lineEnds_eq]
  simp

theorem getElem?_starts :
    (ofText text).starts[lineEnds (cut.before ++ cut.within) cut.rest]? =
      some (byteLength cut.before) := by
  rw [cut.starts_eq hsize, cut.lineEnds_eq, List.getElem?_append_left (by simp)]
  exact getElem?_startsIn cut.starts

end

theorem utf8ByteSize_eq : text.utf8ByteSize = offset + byteLength cut.rest := by
  rw [Text.utf8ByteSize_eq, cut.text_eq, ← List.append_assoc, Text.byteLength_append,
    Text.byteLength_append, cut.offset_eq]

/-- The line map finds the line and the column, as 32 bits hold them. -/
theorem location_eq_wrap (hsize : text.utf8ByteSize ≤ Span.limit) :
    (ofText text).location text offset =
      ⟨Span.wrap cut.location.line, Span.wrap cut.location.column⟩ := by
  have hstop : min offset text.utf8ByteSize = offset := by
    rw [cut.utf8ByteSize_eq]
    omega
  have hstart : min (byteLength cut.before) offset = byteLength cut.before := by
    have := cut.offset_eq
    omega
  have hslice : Text.slice? text (byteLength cut.before) offset =
      some (String.ofList cut.within) := by
    have hslice := Text.slice?_append cut.text_eq
    rwa [cut.offset_eq] at hslice
  simp only [LineMap.location, cut.lineIndex_eq hsize, List.getD_eq_getElem?_getD,
    cut.getElem?_starts hsize, Option.getD_some, hstop, hstart, hslice, Option.map_some,
    String.length_ofList, location, Nat.add_comm 1]

/-- The line map finds the line and the column. -/
theorem location_eq (hsize : text.utf8ByteSize < Span.limit) :
    (ofText text).location text offset = cut.location := by
  -- No more characters and line ends come before the offset than bytes.
  have hbytes := Text.length_le_byteLength (cut.before ++ cut.within)
  have hlines := lineEnds_le_length (cut.before ++ cut.within) cut.rest
  have hoffset := cut.offset_eq
  have htext := cut.utf8ByteSize_eq
  rw [Text.byteLength_append, List.length_append] at hbytes
  rw [List.length_append] at hlines
  have hline : cut.location.line ≤ Span.limit := by
    change 1 + lineEnds (cut.before ++ cut.within) cut.rest ≤ _
    omega
  have hcolumn : cut.location.column ≤ Span.limit := by
    change 1 + cut.within.length ≤ _
    omega
  rw [cut.location_eq_wrap hsize.le, Span.wrap_of_le hline, Span.wrap_of_le hcolumn]

/-- The line map finds the text of the line. -/
theorem lineText?_eq (hsize : text.utf8ByteSize ≤ Span.limit) :
    (ofText text).lineText? text cut.location.line = some cut.lineText := by
  obtain ⟨mid, rest, hrest, hnext, htrim⟩ :=
    exists_lineEnd cut.within cut.rest offset cut.unbroken
  have hnext : ((ofText text).starts[lineEnds (cut.before ++ cut.within) cut.rest + 1]?).getD
      text.utf8ByteSize = byteLength cut.before + byteLength (cut.within ++ mid) := by
    rw [cut.starts_eq hsize, cut.lineEnds_eq, List.getElem?_append_right (by simp),
      Text.byteLength_append, ← Nat.add_assoc, cut.offset_eq, ← hnext, cut.utf8ByteSize_eq,
      List.head?_eq_getElem?]
    simp
  have hcut : text.toList = cut.before ++ ((cut.within ++ mid) ++ rest) := by
    rw [cut.text_eq, hrest, List.append_assoc]
  rw [location, Nat.add_comm]
  simp only [LineMap.lineText?, cut.getElem?_starts hsize, hnext, Option.bind_eq_bind,
    Option.bind_some, Text.slice?_append hcut, htrim, lineText, Option.pure_def]

end LineCut

end PhpScript
