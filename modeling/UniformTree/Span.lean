/-!
# Spans

Half-open ranges of positions. A position is a byte offset shifted by the base of its file, so the
positions of files that are read together stay ordered; position 0 belongs to no file.
-/

namespace UniformTree

/-- The positions from `start` up to, and without, `stop`. -/
structure Span where
  start : UInt32
  stop : UInt32
deriving DecidableEq, Repr, Inhabited

namespace Span

/-- The span of something that has no position. -/
def none : Span := ⟨0, 0⟩

/-- From the start of `first` to the end of `last`. -/
def cover (first last : Span) : Span := ⟨first.start, last.stop⟩

/-- The empty span at a position. -/
def point (p : UInt32) : Span := ⟨p, p⟩

/-- Spans are ordered by their start, then by their end. -/
def le (a b : Span) : Bool := a.start < b.start || (a.start == b.start && a.stop ≤ b.stop)

@[simp] theorem cover_start (a b : Span) : (cover a b).start = a.start := rfl

@[simp] theorem cover_stop (a b : Span) : (cover a b).stop = b.stop := rfl

@[simp] theorem cover_self (a : Span) : cover a a = a := rfl

/-- From the first span of a list to its last one; the empty list covers nothing. -/
def coverAll (spans : List Span) : Span :=
  match spans.head?, spans.getLast? with
  | some first, some last => cover first last
  | _, _ => none

/-- The spans in ascending order. -/
def sort (spans : List Span) : List Span := spans.mergeSort le

end Span

end UniformTree
