/-!
# Spans

A `Span` is the range of byte offsets that a node covers in its file: the first offset, and one
past the last.
-/

namespace Counterpart

/-- The byte offsets from `start` up to, and without, `stop`. -/
structure Span where
  start : Nat
  stop : Nat
  deriving DecidableEq, Inhabited

namespace Span

/-- The number of bytes covered; a span that stops before it starts covers none. -/
def length (s : Span) : Nat :=
  s.stop - s.start

/-- Whether no byte is covered. -/
def isEmpty (s : Span) : Bool :=
  s.length == 0

/-- Whether `inner` lies between the two ends of `outer`. -/
def contains (outer inner : Span) : Bool :=
  decide (outer.start ≤ inner.start) && decide (inner.stop ≤ outer.stop)

/-- A span is written as its two offsets in square brackets. -/
def render (s : Span) : String :=
  "[" ++ toString s.start ++ "," ++ toString s.stop ++ "]"

theorem contains_iff {outer inner : Span} :
    outer.contains inner = true ↔ outer.start ≤ inner.start ∧ inner.stop ≤ outer.stop := by
  simp [contains]

theorem contains_refl (s : Span) : s.contains s = true := by
  simp [contains]

theorem contains_trans {r s t : Span} (h : r.contains s = true) (h' : s.contains t = true) :
    r.contains t = true := by
  simp only [contains_iff] at *
  omega

end Span

end Counterpart
