/-!
# Spans

A span is a half-open range of byte offsets in an expression text.  Offsets stop at `Span.limit`:
whatever lies beyond it is recorded at the limit.
-/
namespace TargetView

/-- The bytes from `start` up to but not including `stop`. -/
structure Span where
  start : Nat
  stop : Nat
  deriving DecidableEq, Repr, Inhabited

namespace Span

/-- The largest offset that is recorded. -/
def limit : Nat := UInt32.size - 1

/-- The span before the first byte, for things that have no place in a text. -/
def none : Span := ⟨0, 0⟩

/-- The empty span at an offset. -/
def point (offset : Nat) : Span := ⟨offset, offset⟩

/-- The span of a range of offsets, each moved down to the limit if it lies beyond. -/
def ofRange (start stop : Nat) : Span :=
  ⟨min start limit, min stop limit⟩

/-- The number of bytes; none if the ends are in the wrong order. -/
def length (s : Span) : Nat := s.stop - s.start

/-- Whether the span holds no byte. -/
def isEmpty (s : Span) : Bool := s.stop ≤ s.start

/-- Whether the byte at an offset belongs to the span. -/
def contains (s : Span) (offset : Nat) : Bool :=
  s.start ≤ offset && offset < s.stop

/-- The smallest span around two. -/
def merge (s t : Span) : Span :=
  ⟨min s.start t.start, max s.stop t.stop⟩

/-- The span moved up by `base` bytes, each end at most to the limit. -/
def shift (s : Span) (base : Nat) : Span :=
  ⟨min (s.start + base) limit, min (s.stop + base) limit⟩

/-- The two offsets with dots between them. -/
def display (s : Span) : String :=
  toString s.start ++ ".." ++ toString s.stop

theorem merge_comm (s t : Span) : s.merge t = t.merge s := by
  simp [merge, Nat.min_comm, Nat.max_comm]

theorem merge_assoc (s t u : Span) : (s.merge t).merge u = s.merge (t.merge u) := by
  simp [merge, Nat.min_assoc, Nat.max_assoc]

@[simp] theorem merge_self (s : Span) : s.merge s = s := by
  simp [merge]

end Span
end TargetView
