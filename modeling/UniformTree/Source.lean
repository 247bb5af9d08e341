import UniformTree.Text.Lossy
/-!
# Sources

The bytes of a file and where in it a byte stands. Rows are counted in line feeds and columns in
bytes, both from zero.
-/

namespace UniformTree

/-- The bytes of a file. -/
structure Source where
  bytes : List UInt8
deriving DecidableEq, Repr, Inhabited

namespace Source

/-- A source that holds the UTF-8 bytes of a text. -/
def ofString (s : String) : Source := ⟨s.toUTF8.data.toList⟩

/-- The number of bytes. -/
def length (src : Source) : Nat := src.bytes.length

/-- The line feed, which ends a row. -/
def lineFeed : UInt8 := 0x0A

/-- The row of a byte: how many line feeds stand before it. -/
def row (src : Source) (byte : Nat) : Nat := (src.bytes.take byte).count lineFeed

/-- The column of a byte: how many bytes stand between it and the line feed before it. -/
def column (src : Source) (byte : Nat) : Nat :=
  ((src.bytes.take byte).reverse.takeWhile (· != lineFeed)).length

/-- The bytes from `start` up to `stop`. -/
def slice (src : Source) (start stop : Nat) : List UInt8 := (src.bytes.take stop).drop start

/-- The text of the bytes from `start` up to `stop`. -/
def text (src : Source) (start stop : Nat) : String := Text.ofBytesLossy (src.slice start stop)

theorem row_mono (src : Source) {a b : Nat} (h : a ≤ b) : src.row a ≤ src.row b :=
  List.Sublist.count_le _ (List.take_sublist_take_left h)

end Source

end UniformTree
