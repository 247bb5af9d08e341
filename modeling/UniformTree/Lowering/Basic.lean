import UniformTree.Ast.Basic
import UniformTree.Comment.Pool
import UniformTree.Lowering.Form
/-!
# Lowering: common parts

Lowering turns concrete nodes into nodes of the source tree and takes the comments that belong to
them out of the pool as it goes. Each form is lowered by a definition that is not recursive: what
becomes of the nodes below is a parameter, `Below`, and the recursion is tied in one place.
-/

namespace UniformTree

/-- What lowering computes, drawing on the comments that nothing owns yet. -/
abbrev Lower (α : Type) := StateM CommentPool α

/-- What expressions and statements on the levels below are lowered to. -/
structure Below where
  expr : Concrete → Lower Expr
  stmt : Concrete → Lower Stmt

namespace Lowering

variable (src : Placed) (below : Below)

/-! ## Comments -/

/-- Take the group that documents a node. -/
def takeDoc (n : Concrete) : Lower (Option CommentGroup) := fun pool =>
  pool.takeDoc (src.startRow n) n.start

/-- Take the group that trails a node on its last row. -/
def takeLine (n : Concrete) : Lower (Option CommentGroup) := fun pool =>
  pool.takeLine (src.endRow n) n.stop

/-! ## Names and literals -/

/-- A node as a name. -/
def ident (n : Concrete) : Ident := ⟨src.span n, src.text n⟩

/-- The name in a field of a node, or an empty one at the start of the node. -/
def identIn (n : Concrete) (f : String) : Ident :=
  match n.child? f with
  | some c => ident src c
  | none => ⟨Span.point (src.pos n.start), ""⟩

/-- A node as a literal. -/
def basicLit (n : Concrete) : BasicLit := ⟨src.span n, LitKind.ofKind n.kind, src.text n⟩

/-! ## Spans -/

/-- From the first opening brace of a node to its last closing one, or the whole node. -/
def braceSpan (n : Concrete) : Span :=
  match n.token? ["\x7b"], n.lastToken? "\x7d" with
  | some o, some c => ⟨src.pos o.start, src.pos c.stop⟩
  | _, _ => src.span n

/-- The empty block that stands at the end of a node without one. -/
def emptyBlock (n : Concrete) : BlockStmt := ⟨Span.point (src.pos n.stop), []⟩

/-! ## Expressions below -/

/-- A child as an expression; an absent one is a bad expression over its owner. -/
def exprOf (owner : Concrete) : Option Concrete → Lower Expr
  | some c => below.expr c
  | none => pure (.bad (src.span owner))

/-- The expression in a field of a node. -/
def exprIn (n : Concrete) (f : String) : Lower Expr := exprOf src below n (n.child? f)

/-- The expression that the first part of a node is. -/
def firstExpr (n : Concrete) : Lower Expr := exprOf src below n n.parts.head?

/-- The expression in a field that may be absent. -/
def exprIn? (n : Concrete) (f : String) : Lower (Option Expr) :=
  match n.child? f with
  | some c => some <$> below.expr c
  | none => pure none

/-- Nodes as expressions, in order. -/
def exprEach (ns : List Concrete) : Lower (List Expr) := ns.mapM below.expr

/-- The expressions of a list of expressions, or the node as the only one. -/
def exprs (n : Concrete) : Lower (List Expr) :=
  if n.kind == "expression_list" then exprEach below n.parts
  else return [← below.expr n]

/-- The expressions in a field; none if it is absent. -/
def exprsIn (n : Concrete) (f : String) : Lower (List Expr) :=
  match n.child? f with
  | some c => exprs below c
  | none => pure []

/-- A type with its arguments: one argument is an index, and any other number a list of them. -/
def instantiate (span : Span) (x : Expr) : List Expr → Expr
  | [i] => .index span x i
  | indices => .indexList span x indices

/-! ## Statements below -/

/-- The statement in a field that may be absent. -/
def stmtIn? (n : Concrete) (f : String) : Lower (Option Stmt) :=
  match n.child? f with
  | some c => some <$> below.stmt c
  | none => pure none

/-- Nodes as statements, in order. -/
def stmtEach (ns : List Concrete) : Lower (List Stmt) := ns.mapM below.stmt

/-- Statement nodes with each list of statements replaced by its parts. -/
def flattened (ns : List Concrete) : List Concrete :=
  ns.flatMap fun c => if c.kind == "statement_list" then c.parts else [c]

/-- A node as a block of statements. -/
def block (n : Concrete) : Lower BlockStmt := do
  let list ← stmtEach below (flattened n.parts)
  return ⟨src.span n, list⟩

/-- The block in a field, or an empty one at the end of the node. -/
def blockIn (n : Concrete) (f : String) : Lower BlockStmt :=
  match n.child? f with
  | some c => block src below c
  | none => pure (emptyBlock src n)

end Lowering

end UniformTree
