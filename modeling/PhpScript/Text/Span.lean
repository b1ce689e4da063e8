import PhpScript.Text.Bytes

/-!
# Spans

A span is a half-open range of byte offsets into a source text. A node that
did not come from a text carries `Span.unknown`, whose start is the largest
offset that a span can hold.

A span holds offsets of 32 bits, and of a larger one its last 32 bits. So where a
text reaches beyond the largest offset, spans fall back to its beginning.
-/

namespace PhpScript

/-- The bytes from `start` up to, and without, `stop`. -/
structure Span where
  start : Nat
  stop : Nat
deriving DecidableEq, Repr, Inhabited

namespace Span

/-- The largest offset a span can hold. -/
def limit : Nat := 4294967295

/-- An offset as a span holds it: its last 32 bits. -/
def wrap (offset : Nat) : Nat := offset % (limit + 1)

/-- The span that points nowhere. -/
def unknown : Span := ⟨limit, limit⟩

/-- A span points nowhere when its start is the largest offset. -/
def isUnknown (s : Span) : Bool := s.start == limit

/-- The span of the characters `cs`, which start at a byte offset. -/
def ofChars (offset : Nat) (cs : List Char) : Span :=
  ⟨wrap offset, wrap (offset + Text.byteLength cs)⟩

/-- The number of bytes covered. -/
def length (s : Span) : Nat := s.stop - s.start

/-- Whether no byte is covered. -/
def isEmpty (s : Span) : Bool := s.length == 0

/-- The smallest span covering both; an unknown span never widens a known one. -/
def cover (s t : Span) : Span :=
  if s.isUnknown then t
  else if t.isUnknown then s
  else ⟨min s.start t.start, max s.stop t.stop⟩

/-- The part of `text` covered, when the span is known and fits it. -/
def slice? (s : Span) (text : String) : Option String :=
  if s.isUnknown then none else Text.slice? text s.start s.stop

/-- The span in words, as `start..stop`. -/
def describe (s : Span) : String :=
  if s.isUnknown then "<unknown>" else s!"{s.start}..{s.stop}"

/-- Offsets up to the largest are held as they are. -/
theorem wrap_of_le {offset : Nat} (h : offset ≤ limit) : wrap offset = offset :=
  Nat.mod_eq_of_lt (Nat.lt_succ_of_le h)

/-- One round further on, the same offset is held. -/
theorem wrap_add_round (offset : Nat) : wrap (offset + (limit + 1)) = wrap offset :=
  Nat.add_mod_right _ _

theorem wrap_le (offset : Nat) : wrap offset ≤ limit :=
  Nat.le_of_lt_succ (Nat.mod_lt offset limit.succ_pos)

end Span

end PhpScript
