import PhpScript.Text.Span

/-!
# Lines and columns

Diagnostics name a place by its line and column, both counted from one. A line
ends at a line feed, at a carriage return and line feed together, or at a
carriage return alone. The column counts characters, so that a line holding
non-ASCII text has the columns an editor shows.

Offsets, lines and columns are numbers of 32 bits, and of a larger one the last
32 bits are left (`Span.wrap`).
-/

namespace PhpScript

/-- A line and a column, both counted from one. -/
structure Location where
  line : Nat
  column : Nat
deriving DecidableEq, Repr, Inhabited

/-- The location as `line:column`. -/
def Location.describe (l : Location) : String := s!"{l.line}:{l.column}"

/-- The byte offsets at which the lines of a text start, in order. The first
    line starts at zero. -/
structure LineMap where
  starts : List Nat
deriving DecidableEq, Repr

namespace LineMap

/-- A character that ends a line, alone or as the second half of a pair. -/
def isTerminator (c : Char) : Bool := c == '\n' || c == '\r'

/-- The offsets just after each line end in `cs`, which begins at `offset`. A
    carriage return before a line feed does not end the line; the line feed does. -/
def startsAfter : List Char → Nat → List Nat
  | [], _ => []
  | c :: cs, offset =>
    if isTerminator c && !(c == '\r' && cs.head? == some '\n') then
      (offset + c.utf8Size) :: startsAfter cs (offset + c.utf8Size)
    else
      startsAfter cs (offset + c.utf8Size)

/-- The line map of a text. -/
def ofText (text : String) : LineMap := ⟨0 :: (startsAfter text.toList 0).map Span.wrap⟩

/-- The number of lines; an empty text has one. -/
def lineCount (m : LineMap) : Nat := m.starts.length

/-- The index, from zero, of the last line that starts at or before `offset`. The
    starts of a text beyond the largest offset are not in order, and so the line that is
    found there is none in particular. -/
def lineIndex (m : LineMap) (offset : Nat) : Nat :=
  (m.starts.takeWhile (· ≤ offset)).length - 1

/-- The location of a byte offset of `text`. An offset past the end is taken
    for the end, and one inside a character has column one. -/
def location (m : LineMap) (text : String) (offset : Nat) : Location :=
  let index := m.lineIndex offset
  let stop := min offset text.utf8ByteSize
  let start := min (m.starts.getD index 0) stop
  let column := ((Text.slice? text start stop).map String.length).getD 0
  ⟨Span.wrap (index + 1), Span.wrap (column + 1)⟩

/-- The text without the line terminators at its end. -/
def trimTerminators (line : String) : String :=
  String.ofList (line.toList.reverse.dropWhile isTerminator).reverse

/-- The text of a line, counted from one, without its terminator. -/
def lineText? (m : LineMap) (text : String) (line : Nat) : Option String :=
  match line with
  | 0 => none
  | index + 1 => do
    let start ← m.starts[index]?
    let stop := m.starts[index + 1]?.getD text.utf8ByteSize
    return trimTerminators (← Text.slice? text start stop)

end LineMap

end PhpScript
