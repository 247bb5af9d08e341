import UniformTree.Concrete.Fault
import UniformTree.Lowering.Stmt
/-!
# Lowering: files

`Lowering.upTo` ties the recursion: nodes of up to a number of levels are lowered by way of the
nodes with one level less. A file is lowered with as many levels as its tree has, so the bad nodes
at level zero are never reached.
-/

namespace UniformTree

namespace Lowering

/-- How nodes of up to a number of levels are lowered. -/
def upTo (src : Placed) : Nat → Below
  | 0 => ⟨fun n => pure (.bad (src.span n)), fun n => pure (.bad (src.span n))⟩
  | levels + 1 => ⟨expr src (upTo src levels), stmt src (upTo src levels)⟩

/-- The node that opens a file. -/
def isPackageClause (n : Concrete) : Bool := n.kind == "package_clause"

/-- The word `package` is missing at the start of a node. -/
def missingPackage (src : Placed) (n : Concrete) : Fault :=
  Fault.ofNode src.source n (.expected "package")

/-- The file, given its package clause and the name in it. -/
def fileAt (src : Placed) (root clause name : Concrete) : Lower File := do
  let doc ← takeDoc src clause
  let nodes := root.parts.filter fun n => !isPackageClause n
  let decls ← nodes.mapM (decl src (upTo src root.height))
  let pool ← get
  return ⟨src.span root, doc, ident src name, decls, pool.remaining⟩

/-- The file that a tree describes. Its first package clause names it, and everything else at the
top is a declaration. -/
def file (src : Placed) (root : Concrete) : Except Fault File :=
  match root.parts.find? isPackageClause with
  | none => .error (missingPackage src root)
  | some clause =>
    match clause.parts.head? with
    | none => .error (missingPackage src clause)
    | some name => .ok (fileAt src root clause name (CommentPool.ofTree src root)).1

end Lowering

end UniformTree
