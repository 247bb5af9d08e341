/-!
# Searching a sorted array

`partitionPoint` finds by halving where the elements that satisfy a predicate end, in an array that
has all of these first.
-/

namespace UniformTree

/-- The place between `lo` and `hi` from which on `p` fails, if it holds up to some place there
and fails from it on. -/
def partitionPointIn {α : Type} (p : α → Bool) (xs : Array α) (lo hi : Nat) : Nat :=
  if lo < hi then
    let mid := lo + (hi - lo) / 2
    match xs[mid]? with
    | some x => if p x then partitionPointIn p xs (mid + 1) hi else partitionPointIn p xs lo mid
    | none => partitionPointIn p xs lo mid
  else lo
termination_by hi - lo

/-- The number of elements at the front of an array that satisfy a predicate, if those that do
all stand at the front. -/
def partitionPoint {α : Type} (p : α → Bool) (xs : Array α) : Nat :=
  partitionPointIn p xs 0 xs.size

end UniformTree
