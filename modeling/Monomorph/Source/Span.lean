/-!
# Spans

A span is a range of byte offsets in one source file. Every expression and every justified type
carries one, so that a report can point at the text responsible for it.
-/

namespace Monomorph

/-- Number of a source file, in order of registration. -/
abbrev FileId := Nat

/-- Bytes `start` (included) to `stop` (excluded) of one source file. -/
structure Span where
  file : FileId
  start : Nat
  stop : Nat
  deriving DecidableEq, Inhabited, Repr

namespace Span

/-- The empty span at the start of the first file, for whatever has no place in a text. -/
def none : Span := ⟨0, 0, 0⟩

def length (s : Span) : Nat := s.stop - s.start

def isEmpty (s : Span) : Bool := s.start == s.stop

/-- The least span covering both, which exists only within one file. -/
def merge? (s t : Span) : Option Span :=
  if s.file = t.file then
    some ⟨s.file, min s.start t.start, max s.stop t.stop⟩
  else
    Option.none

end Span
end Monomorph
