import Primer.Text.Decimal

/-!
# Spans

A span locates a piece of a program's text by two positions, counted in
characters: where the piece starts and where it stops, the stop excluded.
Positions are words of 64 bits. Nothing forces the stop to come after the
start. A span made of two unrelated positions is a value like any other, and
only its `length` has to say what it means: nothing.

Checking and emission carry spans along and never look inside one. The only
place where spans are combined is the syntax tree, where a node that was
given no span of its own takes the `join` of its parts.
-/

namespace Primer

open Text

/-- **A span**: the positions `start`, `start + 1`, …, up to but not
including `stop`. -/
structure Span where
  /-- The first position of the span. -/
  start : UInt64
  /-- The first position after the span. -/
  stop : UInt64
  deriving DecidableEq

namespace Span

/-- The span of a node that was given none. -/
def origin : Span := ⟨0, 0⟩

/-- The span of one character. -/
def single (index : UInt64) : Span := ⟨index, index + 1⟩

/-- The empty span at a position, such as the end of the text. -/
def marker (index : UInt64) : Span := ⟨index, index⟩

/-- The least start and the greatest stop of two spans. -/
def join (a b : Span) : Span := ⟨min a.start b.start, max a.stop b.stop⟩

/-- The number of positions in a span. A span that stops before it starts
has none. -/
def length (s : Span) : UInt64 :=
  if s.start ≤ s.stop then s.stop - s.start else 0

/-- Whether the span has no position. -/
def isEmpty (s : Span) : Bool := s.length == 0

/-- A span as text, the two positions with two points between. -/
def text (s : Span) : String :=
  Decimal.ofNat s.start.toNat ++ ".." ++ Decimal.ofNat s.stop.toNat

end Span

end Primer
