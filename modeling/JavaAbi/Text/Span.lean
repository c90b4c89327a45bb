namespace JavaAbi

/-!
# Spans

A span is a half-open byte range in one file of a batch.

* `Span.nowhere` — the span of what no file holds: synthesized nodes and types of the classpath;
* `Span.cover` — the smallest range around two ranges of one file, and `Span.merge?`, which
  refuses ranges of different files.
-/

/-- A half-open byte range `[start, stop)`; `file` is the position of its file in the batch. -/
structure Span where
  file : Option Nat
  start : Nat
  stop : Nat
  deriving DecidableEq, Inhabited, Repr

namespace Span

/-- The span of what no file holds. -/
def nowhere : Span := ⟨none, 0, 0⟩

/-- Whether no file holds the span. -/
def isNowhere (s : Span) : Bool := s.file.isNone

/-- Length in bytes. -/
def length (s : Span) : Nat := s.stop - s.start

/-- Whether the span holds no byte. -/
def isEmpty (s : Span) : Bool := s.start == s.stop

/-- The smallest range around two ranges, in the file of the first. -/
def cover (s t : Span) : Span := ⟨s.file, min s.start t.start, max s.stop t.stop⟩

/-- The smallest range around two ranges of one file; ranges of different files have none. -/
def merge? (s t : Span) : Option Span := if s.file = t.file then some (s.cover t) else none

/-! ### Laws of `cover` -/

@[simp] theorem cover_self (s : Span) : s.cover s = s := by simp [cover]

theorem cover_assoc (s t u : Span) : (s.cover t).cover u = s.cover (t.cover u) := by
  simp [cover, Nat.min_assoc, Nat.max_assoc]

theorem start_cover_le (s t : Span) : (s.cover t).start ≤ s.start ∧ (s.cover t).start ≤ t.start :=
  ⟨Nat.min_le_left .., Nat.min_le_right ..⟩

theorem le_stop_cover (s t : Span) : s.stop ≤ (s.cover t).stop ∧ t.stop ≤ (s.cover t).stop :=
  ⟨Nat.le_max_left .., Nat.le_max_right ..⟩

end Span

end JavaAbi
