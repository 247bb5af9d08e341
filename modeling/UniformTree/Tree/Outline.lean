import UniformTree.Tree.Basic
/-!
# Outlines

A tree on one line without its spans: a leaf is its kind with its label in brackets, any other node
stands in parentheses before its children.
-/

namespace UniformTree

namespace Tree

/-- The kind of a node with its label, if it has one. -/
def head (kind : Kind) (label : Option String) : String :=
  match label with
  | some l => kind.name ++ "[" ++ l ++ "]"
  | none => kind.name

mutual

/-- The outline of a tree. -/
def outline : Tree → String
  | ⟨kind, _, label, []⟩ => head kind label
  | ⟨kind, _, label, c :: cs⟩ => "(" ++ head kind label ++ outlineAll (c :: cs) ++ ")"

/-- The outlines of a row of trees, each after a blank. -/
def outlineAll : List Tree → String
  | [] => ""
  | t :: ts => " " ++ outline t ++ outlineAll ts

end

end Tree

end UniformTree
