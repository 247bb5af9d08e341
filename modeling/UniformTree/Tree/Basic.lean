import UniformTree.Kind
import UniformTree.Span
/-!
# Uniform trees

A tree in which every node has the same form: a kind, a span, a label that it may lack, and its
children in order. The queries go through the tree with a stack and need no recursion, so they may
be asked of a tree of any depth; `nodes`, `count` and `levels` say by recursion what they come to.
-/

namespace UniformTree

/-- A node of a uniform tree with all that is below it. -/
structure Tree where
  kind : Kind
  span : Span
  label : Option String
  children : List Tree
deriving Repr, Inhabited

namespace Tree

/-! ## By recursion -/

mutual

/-- The nodes of a tree, each before its children. -/
def nodes : Tree → List Tree
  | ⟨kind, span, label, children⟩ => ⟨kind, span, label, children⟩ :: nodesAll children

/-- The nodes of a row of trees, in order. -/
def nodesAll : List Tree → List Tree
  | [] => []
  | t :: ts => nodes t ++ nodesAll ts

end

mutual

/-- The number of nodes of a tree. -/
def count : Tree → Nat
  | ⟨_, _, _, children⟩ => 1 + countAll children

/-- The number of nodes of a row of trees. -/
def countAll : List Tree → Nat
  | [] => 0
  | t :: ts => count t + countAll ts

end

mutual

/-- The number of levels of a tree; a leaf has one. -/
def levels : Tree → Nat
  | ⟨_, _, _, children⟩ => 1 + levelsAll children

/-- The number of levels of the highest of a row of trees. -/
def levelsAll : List Tree → Nat
  | [] => 0
  | t :: ts => max (levels t) (levelsAll ts)

end

theorem nodes_eq (t : Tree) : t.nodes = t :: nodesAll t.children := by cases t; rfl

theorem count_eq (t : Tree) : t.count = 1 + countAll t.children := by cases t; rfl

theorem levels_eq (t : Tree) : t.levels = 1 + levelsAll t.children := by cases t; rfl

theorem countAll_append (ts us : List Tree) : countAll (ts ++ us) = countAll ts + countAll us := by
  induction ts with
  | nil => simp [countAll]
  | cons t ts ih => simp [countAll, ih, Nat.add_assoc]

/-! ## By a stack -/

/-- The nodes that a stack of trees holds, the top one first: the top is taken off and its children
are put in its place. -/
def preorderOf : List Tree → List Tree
  | [] => []
  | t :: stack => t :: preorderOf (t.children ++ stack)
termination_by stack => countAll stack
decreasing_by
  have := count_eq t
  simp only [countAll, countAll_append]
  omega

/-- The nodes of a tree, each before its children. -/
def preorder (t : Tree) : List Tree := preorderOf [t]

/-- The number of nodes of a tree. -/
def size (t : Tree) : Nat := t.preorder.length

/-- Trees of a level as they lie on the stack, the last one on top. -/
def stacked (level : Nat) (ts : List Tree) : List (Tree × Nat) :=
  (ts.map fun t => (t, level)).reverse

theorem countAll_reverse (ts : List Tree) : countAll ts.reverse = countAll ts := by
  induction ts with
  | nil => rfl
  | cons t ts ih => simp only [List.reverse_cons, countAll_append, countAll, ih]; omega

theorem countAll_stacked (level : Nat) (ts : List Tree) :
    countAll ((stacked level ts).map (·.1)) = countAll ts := by
  have h : (stacked level ts).map (·.1) = ts.reverse := by
    simp only [stacked, List.map_reverse, List.map_map]
    exact congrArg _ (List.map_id ts)
  rw [h, countAll_reverse]

/-- The highest level on a stack of trees with their levels and below, or one seen before. -/
def deepest (seen : Nat) : List (Tree × Nat) → Nat
  | [] => seen
  | (t, level) :: stack => deepest (max seen level) (stacked (level + 1) t.children ++ stack)
termination_by stack => countAll (stack.map (·.1))
decreasing_by
  have := count_eq t
  simp only [List.map_append, List.map_cons, countAll, countAll_append, countAll_stacked]
  omega

/-- The number of levels of a tree; a leaf has one. -/
def depth (t : Tree) : Nat := deepest 0 [(t, 1)]

/-! ## Queries -/

/-- The nodes of a kind, in pre-order. -/
def findAll (t : Tree) (kind : Kind) : List Tree := t.preorder.filter (·.kind == kind)

/-- The first node of a kind in pre-order. -/
def find? (t : Tree) (kind : Kind) : Option Tree := t.preorder.find? (·.kind == kind)

/-- The kinds of the children. -/
def childKinds (t : Tree) : List Kind := t.children.map (·.kind)

mutual

/-- The nodes of a tree in pre-order, each with its level counted from one given for the root. -/
def rows (level : Nat) : Tree → List (Nat × Tree)
  | ⟨kind, span, label, children⟩ =>
    (level, ⟨kind, span, label, children⟩) :: rowsAll (level + 1) children

/-- The nodes of a row of trees with their levels, in order. -/
def rowsAll (level : Nat) : List Tree → List (Nat × Tree)
  | [] => []
  | t :: ts => rows level t ++ rowsAll level ts

end

end Tree

end UniformTree
