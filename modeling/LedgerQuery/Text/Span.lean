import LedgerQuery.Text.Bytes

/-!
# Spans

A span is a stretch of the query text, given by two byte offsets.  The text of
a span is empty when the span does not lie between two characters of the
source.
-/

namespace LedgerQuery

/-- A stretch of a text: the offset of its first byte and the offset after its last. -/
structure Span where
  /-- The offset of the first byte. -/
  start : Nat
  /-- The offset after the last byte. -/
  stop : Nat
deriving DecidableEq, Repr, Inhabited

namespace Span

/-- The number of bytes. -/
def length (s : Span) : Nat := s.stop - s.start

/-- Whether the span has no bytes. -/
def isEmpty (s : Span) : Bool := s.start == s.stop

/-- The smallest span that covers both. -/
def merge (s t : Span) : Span := ⟨min s.start t.start, max s.stop t.stop⟩

/-- The characters of a text that a span covers, if it lies between two characters. -/
def slice? (s : Span) (cs : List Char) : Option (List Char) :=
  if s.start ≤ s.stop then do
    let (_, rest) ← splitAtByte? cs s.start
    let (covered, _) ← splitAtByte? rest s.length
    return covered
  else none

/-- The text that a span covers; empty if it does not lie between two characters. -/
def text (s : Span) (source : String) : String :=
  String.ofList ((s.slice? source.toList).getD [])

/-- The written form, start and stop with two dots between. -/
def display (s : Span) : String := s!"{s.start}..{s.stop}"

end Span

end LedgerQuery
