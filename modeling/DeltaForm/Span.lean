/-!
# Spans

A span is a range of byte offsets in a source text. Offsets count the bytes of the UTF-8 form, so
the width of a stretch of characters is `byteLength`.
-/

namespace DeltaForm

/-- The number of bytes of a text in UTF-8. -/
def byteLength : List Char → Nat
  | [] => 0
  | c :: cs => c.utf8Size + byteLength cs

/-- A range of byte offsets, from `start` up to but not including `stop`. -/
structure Span where
  /-- Offset of the first byte. -/
  start : Nat
  /-- Offset after the last byte. -/
  stop : Nat
  deriving DecidableEq, Repr, Inhabited

namespace Span

/-- The smallest span that covers two spans. -/
def join (a b : Span) : Span := ⟨min a.start b.start, max a.stop b.stop⟩

/-- The number of bytes covered; a span that ends before it starts covers none. -/
def length (s : Span) : Nat := s.stop - s.start

/-- Whether a span covers no byte. -/
def isEmpty (s : Span) : Bool := s.length == 0

/-- The text that a span covers, if its ends stand in order between characters of the source. -/
def slice? (source : String) (s : Span) : Option String := do
  let start ← source.pos? ⟨s.start⟩
  let stop ← source.pos? ⟨s.stop⟩
  let slice ← source.slice? start stop
  return slice.copy

end Span

end DeltaForm
