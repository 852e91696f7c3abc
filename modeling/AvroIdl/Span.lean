import AvroIdl.Text.Bytes

/-!
# Spans

A span is a range of bytes of a text. Offsets are numbers below 2^32, and the end of a span is
taken modulo 2^32.
-/

namespace AvroIdl

/-- The largest offset, which is also the largest size of a text that is read. -/
def maxOffset : Nat := 4294967295

/-- A number as an offset: offsets start again at zero after the largest. -/
def wrapOffset (n : Nat) : Nat := n % 4294967296

/-- A range of bytes. -/
structure Span where
  start : Nat
  len : Nat
  deriving DecidableEq, Repr

namespace Span

/-- The offset after the last byte. -/
def stop (s : Span) : Nat := wrapOffset (s.start + s.len)

/-- Whether an offset lies within a span. Only an empty span contains its end. -/
def contains (s : Span) (offset : Nat) : Bool :=
  s.start ≤ offset && (offset < s.stop || (s.len = 0 && offset = s.start))

/-- Whether `other` lies entirely within `s`. -/
def covers (s other : Span) : Bool := s.start ≤ other.start && other.stop ≤ s.stop

/-- A span as it is shown. -/
def render (s : Span) : Bytes := Bytes.join [Bytes.ofNat s.start, "+", Bytes.ofNat s.len]

end Span

end AvroIdl
