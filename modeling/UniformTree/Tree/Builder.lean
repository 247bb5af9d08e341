import UniformTree.Tree.Basic
import UniformTree.Walk.Visitor
/-!
# Building uniform trees

The builder follows a walk with a stack of unfinished trees: entering a node pushes a tree without
children, leaving it appends the finished tree to the one below it or, at the bottom of the stack,
hands it out.
-/

namespace UniformTree

/-- What is kept of a source tree. -/
structure BuildOptions where
  /-- Comments are kept. -/
  comments : Bool
deriving DecidableEq, Repr, Inhabited

namespace Node

/-- A comment, a group of comments, or the list of the groups of a file. -/
def isCommentary : Node → Bool
  | list role _ _ => role == .comments
  | n => n.kind.isComment

/-- The uniform node of a node, without children. -/
def shell (n : Node) : Tree := ⟨n.kind, n.span, n.label, []⟩

/-- The node is part of the tree when it is not its root. -/
def isKept (options : BuildOptions) (n : Node) : Bool := options.comments || !n.isCommentary

end Node

/-- A tree that is being built. -/
structure Builder where
  options : BuildOptions
  /-- The nodes that have been entered and not left, the last one first. -/
  stack : List Tree
deriving Inhabited

namespace Builder

/-- Nothing has been entered. -/
def start (options : BuildOptions) : Builder := ⟨options, []⟩

/-- The number of nodes that have been entered and not left. -/
def openNodes (b : Builder) : Nat := b.stack.length

/-- Enter a node. The first node of all is never skipped. -/
def enter (n : Node) (b : Builder) : Descend × Builder :=
  if !b.options.comments && !b.stack.isEmpty && n.isCommentary then (.skip, b)
  else (.children, { b with stack := n.shell :: b.stack })

/-- Leave the node that was entered last; leaving without having entered does nothing. -/
def leave (b : Builder) : Option Tree × Builder :=
  match b.stack with
  | [] => (none, b)
  | [done] => (some done, { b with stack := [] })
  | done :: parent :: stack =>
    (none, { b with stack := { parent with children := parent.children ++ [done] } :: stack })

/-- The visitor that builds a tree. -/
def visitor : Visitor Builder Tree := ⟨enter, leave⟩

end Builder

/-- The tree that a walk of a node builds, if it is left in the end. -/
def Node.normalize? (n : Node) (options : BuildOptions) : Option Tree :=
  (Builder.visitor.walk n (Builder.start options)).1

/-- The uniform tree that a walk of a node builds. -/
def Node.normalize (n : Node) (options : BuildOptions) : Tree :=
  (n.normalize? options).getD n.shell

end UniformTree
