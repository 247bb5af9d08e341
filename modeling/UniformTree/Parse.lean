import UniformTree.Concrete.Cursor
import UniformTree.Error
import UniformTree.Lowering.File
import UniformTree.Positions
import UniformTree.Settings.Basic
/-!
# Parsing documents

From a document, that is a source and its concrete tree, to a source tree and a uniform tree. A
document is refused if it nests too deep, else if it has a fault, else if it has no package clause.
-/

namespace UniformTree

/-- A source and its concrete tree. -/
structure Document where
  source : Source
  tree : Concrete
deriving Repr

/-- A fault in a file. -/
def ParseError.ofFault (path : String) (f : Fault) : ParseError :=
  .misfit path (UInt32.ofNat f.line) (UInt32.ofNat f.column) (UInt32.ofNat f.offset)
    f.cause.message

/-- A node of a file that lies too deep. -/
def ParseError.ofDepth (path : String) (src : Source) (limit : UInt32) (n : Concrete) :
    ParseError :=
  .tooDeep path (UInt32.ofNat (src.row n.start + 1)) (UInt32.ofNat (src.column n.start + 1)) limit

namespace Document

/-- The source tree of a document at a base, with no check but for its package clause. -/
def lower (d : Document) (path : String) (base : UInt32) : Except ParseError File :=
  (Lowering.file ⟨d.source, base⟩ d.tree).mapError (ParseError.ofFault path)

/-- The source tree of a document whose nodes lie at most `limit` levels below the root. -/
def parse (d : Document) (limit : UInt32) (path : String) (base : UInt32) :
    Except ParseError File :=
  match d.tree.tooDeep? limit.toNat with
  | some (_, n) => .error (ParseError.ofDepth path d.source limit n)
  | none =>
    match Fault.first? d.source d.tree with
    | some f => .error (ParseError.ofFault path f)
    | none => d.lower path base

/-- The uniform tree of a document that is read by itself. -/
def uniform (d : Document) (settings : Settings) (path : String) : Except ParseError Tree :=
  (d.parse settings.nestingLimit path Positions.start.next).map fun f =>
    (Node.file f).normalize settings.buildOptions

end Document

end UniformTree
