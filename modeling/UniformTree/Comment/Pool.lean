import UniformTree.Comment.Basic
import UniformTree.Comment.Search
import UniformTree.Placed
/-!
# Handing out comments

A grammar lets comments stand anywhere, so in a concrete tree they hang off no declaration. Here
they are gathered into groups, and each group is handed out at most once: as the doc of what starts
on the next row, as the line comment of what ends before it on its row, or at last to the file.
-/

namespace UniformTree

/-- A group of comments on its way to an owner. -/
structure Slot where
  group : CommentGroup
  startRow : Nat
  endRow : Nat
  startByte : Nat
  endByte : Nat
  /-- The group starts on a row on which code stands before it. -/
  trailing : Bool
  /-- The group has an owner. -/
  taken : Bool
deriving Repr, Inhabited

namespace Slot

/-- A slot that holds one comment. -/
def ofComment (src : Placed) (n : Concrete) (trailing : Bool) : Slot where
  group := ⟨src.span n, [⟨src.span n, src.text n⟩]⟩
  startRow := src.startRow n
  endRow := src.endRow n
  startByte := n.start
  endByte := n.stop
  trailing := trailing
  taken := false

/-- A comment that starts on a row may join the group: a trailing group goes on along its row, any
other also to the row below. -/
def reaches (s : Slot) (row : Nat) : Bool :=
  if s.trailing then row == s.endRow else row ≤ s.endRow + 1

/-- The group with one more comment. -/
def push (src : Placed) (s : Slot) (n : Concrete) : Slot :=
  { s with
    group := ⟨⟨s.group.span.start, (src.span n).stop⟩, s.group.list ++ [⟨src.span n, src.text n⟩]⟩
    endRow := src.endRow n
    endByte := n.stop }

/-- The group stands alone and ends on the row above a row. -/
def endsAbove (row : Nat) (s : Slot) : Bool := !s.trailing && s.endRow + 1 == row

end Slot

/-- Comments that are being gathered, leaf by leaf. -/
structure Gathering where
  /-- The groups so far, the last one first. -/
  slots : List Slot
  /-- The row on which the last code before here ends. -/
  codeRow : Option Nat
  /-- No code has come after the last group. -/
  isOpen : Bool

namespace Gathering

/-- Nothing has been gathered. -/
def empty : Gathering := ⟨[], none, false⟩

/-- A leaf that takes part in the layout only: a line break that ends a statement, or nothing. -/
def isLayout (n : Concrete) : Bool := n.kind == "\n" || n.start == n.stop

/-- The gathering after one more leaf. -/
def add (src : Placed) (g : Gathering) (n : Concrete) : Gathering :=
  if n.isComment then
    let fresh := Slot.ofComment src n (g.codeRow == some (src.startRow n))
    match g.slots with
    | last :: before =>
      if g.isOpen && last.reaches (src.startRow n) then
        { g with slots := last.push src n :: before }
      else { g with slots := fresh :: g.slots, isOpen := true }
    | [] => { g with slots := [fresh], isOpen := true }
  else if isLayout n then g
  else { g with codeRow := some (src.endRow n), isOpen := false }

end Gathering

/-- The comment groups of a file in source order, and which of them have an owner. -/
structure CommentPool where
  slots : Array Slot
deriving Inhabited

namespace CommentPool

/-- The comment groups of a tree, none of them taken. -/
def ofTree (src : Placed) (root : Concrete) : CommentPool :=
  ⟨(root.leaves.foldl (Gathering.add src) Gathering.empty).slots.reverse.toArray⟩

/-- The first place from `lo` up to `hi` whose group is free and fits. -/
def firstFree? (slots : Array Slot) (fits : Slot → Bool) (lo hi : Nat) : Option Nat :=
  (List.range' lo (hi - lo)).find? fun i =>
    match slots[i]? with
    | some s => !s.taken && fits s
    | none => false

/-- The first free group that fits from `lo` up to `hi`, and the pool without it. -/
def takeIn (pool : CommentPool) (fits : Slot → Bool) (lo hi : Nat) :
    Option CommentGroup × CommentPool :=
  match firstFree? pool.slots fits lo hi with
  | some i =>
    (pool.slots[i]?.map (·.group), ⟨pool.slots.modify i fun s => { s with taken := true }⟩)
  | none => (none, pool)

/-- Take the group that documents what starts at a byte: it ends on the row above, and before the
byte. Only the last groups before the byte can end on the row above, so the search begins after
those that end further up. -/
def takeDoc (pool : CommentPool) (row start : Nat) : Option CommentGroup × CommentPool :=
  let hi := partitionPoint (fun s => s.endByte ≤ start) pool.slots
  let near := (pool.slots.toList.take hi).reverse.takeWhile fun s => !(s.endRow + 1 < row)
  pool.takeIn (Slot.endsAbove row) (hi - near.length) hi

/-- Take the trailing group that starts at or after a byte and on its row. -/
def takeLine (pool : CommentPool) (row stop : Nat) : Option CommentGroup × CommentPool :=
  let lo := partitionPoint (fun s => s.startByte < stop) pool.slots
  let onRow := (pool.slots.toList.drop lo).takeWhile fun s => s.startRow == row
  pool.takeIn (·.trailing) lo (lo + onRow.length)

/-- The groups without an owner, in source order. -/
def remaining (pool : CommentPool) : List CommentGroup :=
  (pool.slots.toList.filter fun s => !s.taken).map (·.group)

end CommentPool

end UniformTree
