/-!
# Byte ranges

A `Span` is a half-open range of byte offsets. Parse trees, class models, scopes and edits all speak
about positions through it.
-/

namespace CodeInsight

/-- The bytes from `start` up to, but not including, `stop`. -/
structure Span where
  start : Nat
  stop : Nat
  deriving DecidableEq, Repr, Inhabited

namespace Span

def empty (offset : Nat) : Span := ⟨offset, offset⟩

/-- An offset is in a range when a byte of the range stands there. -/
def contains (r : Span) (offset : Nat) : Bool := r.start ≤ offset && offset < r.stop

/-- Both ends count: the range is followed by the offset or contains it. -/
def touches (r : Span) (offset : Nat) : Bool := r.start ≤ offset && offset ≤ r.stop

/-- Every byte of `inner`, and both of its ends, lie within `outer`. -/
def encloses (outer inner : Span) : Bool := outer.start ≤ inner.start && inner.stop ≤ outer.stop

/-- Two ranges overlap when each begins before the other ends. -/
def overlaps (a b : Span) : Bool := a.start < b.stop && b.start < a.stop

def isEmpty (r : Span) : Bool := r.start == r.stop

def length (r : Span) : Nat := r.stop - r.start

def through (a b : Span) : Span := ⟨a.start, b.stop⟩

end Span

end CodeInsight
