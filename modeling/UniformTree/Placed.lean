import UniformTree.Concrete.Basic
import UniformTree.Source
import UniformTree.Span
/-!
# Placed sources

A source whose first byte stands at a base position. Every position that is given to a node comes
from here.
-/

namespace UniformTree

/-- A source and the position of its first byte. -/
structure Placed where
  source : Source
  base : UInt32
deriving Repr, Inhabited

namespace Placed

/-- The position of a byte. -/
def pos (src : Placed) (byte : Nat) : UInt32 := src.base + UInt32.ofNat byte

/-- The span of a node. -/
def span (src : Placed) (n : Concrete) : Span := ⟨src.pos n.start, src.pos n.stop⟩

/-- The text of a node. -/
def text (src : Placed) (n : Concrete) : String := src.source.text n.start n.stop

/-- The row in which a node starts. -/
def startRow (src : Placed) (n : Concrete) : Nat := src.source.row n.start

/-- The row in which a node ends. -/
def endRow (src : Placed) (n : Concrete) : Nat := src.source.row n.stop

end Placed

end UniformTree
