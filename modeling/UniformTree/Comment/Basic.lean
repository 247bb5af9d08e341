import UniformTree.Span
/-!
# Comments and comment groups
-/

namespace UniformTree

/-- A comment with its markers. -/
structure Comment where
  span : Span
  text : String
deriving DecidableEq, Repr, Inhabited

/-- Comments that belong together: at most one line break and no code stands between them. -/
structure CommentGroup where
  span : Span
  list : List Comment
deriving DecidableEq, Repr, Inhabited

end UniformTree
