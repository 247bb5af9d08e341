import UniformTree.Concrete.Basic
/-!
# Concrete trees as rows

A tree is given as its nodes in pre-order, each with its depth. The children of a row are the rows
after it that are one deeper, up to the next row that is not deeper.
-/

namespace UniformTree

/-- A node of a concrete tree without its children, and how deep it lies. -/
structure Row where
  depth : Nat
  kind : String
  field : Option String
  start : Nat
  stop : Nat
  isNamed : Bool
  isError : Bool
  isMissing : Bool
deriving DecidableEq, Repr, Inhabited

namespace Row

/-- The node of a row, given its children. -/
def node (r : Row) (children : List Concrete) : Concrete :=
  ⟨r.kind, r.field, r.start, r.stop, r.isNamed, r.isError, r.isMissing, children⟩

end Row

namespace Concrete

/-- The trees that rows describe, with the depths of their roots. A row takes the trees that
follow it for its children as far as they are deeper. -/
def forest (rows : List Row) : List (Nat × Concrete) :=
  rows.foldr (fun r after =>
    (r.depth, r.node ((after.takeWhile (r.depth < ·.1)).map (·.2))) ::
      after.dropWhile (r.depth < ·.1)) []

/-- The tree that rows describe, if they describe exactly one. -/
def ofRows? (rows : List Row) : Option Concrete :=
  match forest rows with
  | [(0, root)] => some root
  | _ => none

end Concrete

end UniformTree
