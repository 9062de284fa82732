import LetPoly.Defect

/-!
# Spans

A span is a range of byte offsets in one file.  The start is the offset of the first
byte and the stop is the offset after the last, so an empty span has both equal.
Two spans of one file join to the smallest span that covers both.  Spans of different
files have no join.
-/

namespace LetPoly

/-- The number of a source file. -/
abbrev FileId := Nat

/-- A range of byte offsets in a file. -/
structure Span where
  /-- The offset of the first byte. -/
  start : Nat
  /-- The offset after the last byte. -/
  stop : Nat
  /-- The file the offsets are in. -/
  file : FileId
  deriving DecidableEq, Repr, Inhabited

namespace Span

/-- The empty span at the beginning of a file. -/
def origin (file : FileId) : Span := ⟨0, 0, file⟩

/-- The empty span right after a span. -/
def after (s : Span) : Span := ⟨s.stop, s.stop, s.file⟩

/-- The smallest span that covers two spans of one file. -/
def join (s t : Span) : Except Defect Span :=
  if s.file = t.file then
    .ok ⟨min s.start t.start, max s.stop t.stop, s.file⟩
  else
    .error .spansOfTwoFiles

end Span

end LetPoly
