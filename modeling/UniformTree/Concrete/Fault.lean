import UniformTree.Concrete.Basic
import UniformTree.Source
import UniformTree.Text.Blank
/-!
# Faults

A tree is made of any source, also of one that does not fit the grammar: what did not fit is in it
as an error node, and what had to be supplied as a missing one. The first of these in the source is
the fault that is reported.
-/

namespace UniformTree

namespace Concrete

/-- An error node or a missing one. -/
def isFaulty (n : Concrete) : Bool := n.isError || n.isMissing

mutual

/-- The subtree has a faulty node. -/
def hasFault : Concrete → Bool
  | ⟨_, _, _, _, _, isError, isMissing, children⟩ => isError || isMissing || hasFaultAll children

/-- One of the subtrees has a faulty node. -/
def hasFaultAll : List Concrete → Bool
  | [] => false
  | c :: cs => hasFault c || hasFaultAll cs

end

mutual

/-- The faulty nodes of a subtree in pre-order; subtrees without any are not entered. -/
def faulty : Concrete → List Concrete
  | ⟨kind, field, start, stop, isNamed, isError, isMissing, children⟩ =>
    let n : Concrete := ⟨kind, field, start, stop, isNamed, isError, isMissing, children⟩
    let below := if n.hasFault then faultyAll children else []
    if n.isFaulty then n :: below else below

/-- The faulty nodes of a row of subtrees, in order. -/
def faultyAll : List Concrete → List Concrete
  | [] => []
  | c :: cs => faulty c ++ faultyAll cs

end

/-- Of two nodes the one that starts earlier; the first one when they start together. -/
def earlier (first : Option Concrete) (n : Concrete) : Option Concrete :=
  match first with
  | some f => if n.start < f.start then some n else some f
  | none => some n

/-- The faulty node that starts first, and of those the first in pre-order. -/
def firstFaulty? (root : Concrete) : Option Concrete :=
  if root.hasFault then root.faulty.foldl earlier none else none

end Concrete

/-- Why a source does not fit the grammar at a place. -/
inductive Misfit where
  /-- A token that should have been there. -/
  | expected (kind : String)
  /-- Text that should not have been there. -/
  | unexpected (snippet : String)
  /-- The source is over too soon. -/
  | endOfFile
deriving DecidableEq, Repr

namespace Misfit

/-- The wording of a misfit. -/
def message : Misfit → String
  | expected kind => s!"expected '{kind}'"
  | unexpected snippet => s!"unexpected '{snippet}'"
  | endOfFile => "unexpected end of file"

/-- How much of the text that does not fit is shown. -/
def snippetLength : Nat := 24

/-- The misfit that a faulty node stands for. -/
def ofNode (src : Source) (n : Concrete) : Misfit :=
  if n.isMissing then expected n.kind
  else
    match (Text.trim (Text.decodeLossy (src.slice n.start n.stop))).take snippetLength with
    | [] => endOfFile
    | snippet => unexpected (String.ofList snippet)

end Misfit

/-- A misfit and its place: line and column count from one, the offset in bytes from zero. -/
structure Fault where
  line : Nat
  column : Nat
  offset : Nat
  cause : Misfit
deriving DecidableEq, Repr

namespace Fault

/-- A misfit at the start of a node. -/
def ofNode (src : Source) (n : Concrete) (cause : Misfit) : Fault :=
  ⟨src.row n.start + 1, src.column n.start + 1, n.start, cause⟩

/-- The first fault of a source. -/
def first? (src : Source) (root : Concrete) : Option Fault :=
  root.firstFaulty?.map fun n => ofNode src n (Misfit.ofNode src n)

end Fault

end UniformTree
