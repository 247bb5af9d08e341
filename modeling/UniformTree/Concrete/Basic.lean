/-!
# Concrete trees

What the grammar made of a source: every token, comment and rule as a node over a range of bytes.
The tree is made elsewhere and only read here, so nothing is assumed of it: kinds may be unknown,
fields may be missing, and nodes may be errors or stand for something that was not there.
-/

namespace UniformTree

/-- A node of a concrete tree, with the field that it fills in its parent. -/
structure Concrete where
  kind : String
  field : Option String
  start : Nat
  stop : Nat
  /-- A rule or a named token, and not a piece of punctuation. -/
  isNamed : Bool
  /-- Text that fits no rule. -/
  isError : Bool
  /-- A token that was supplied where the source has none. -/
  isMissing : Bool
  children : List Concrete
deriving Repr, Inhabited

namespace Concrete

/-! ## Looking at the children -/

/-- Comments may stand between any two tokens. -/
def isComment (n : Concrete) : Bool := n.kind == "comment"

/-- The node fills a field of its parent. -/
def fills (f : String) (n : Concrete) : Bool := n.field == some f

/-- A named node that is not a comment. -/
def isPart (n : Concrete) : Bool := n.isNamed && !n.isComment

/-- The named children that are not comments. -/
def parts (n : Concrete) : List Concrete := n.children.filter isPart

/-- The first child that fills a field. -/
def child? (n : Concrete) (f : String) : Option Concrete := n.children.find? (fills f)

/-- The parts that fill a field; a separator may fill it too and is no part. -/
def partsIn (n : Concrete) (f : String) : List Concrete :=
  n.children.filter fun c => c.fills f && c.isPart

/-- The parts other than the first child that fills a field. -/
def partsBeside (n : Concrete) (f : String) : List Concrete :=
  (n.children.eraseP (fills f)).filter isPart

/-- The first punctuation child of one of some kinds. -/
def token? (n : Concrete) (kinds : List String) : Option Concrete :=
  n.children.find? fun c => !c.isNamed && kinds.contains c.kind

/-- The last punctuation child of a kind. -/
def lastToken? (n : Concrete) (kind : String) : Option Concrete :=
  (n.children.filter fun c => !c.isNamed && c.kind == kind).getLast?

/-! ## Whole subtrees -/

mutual

/-- The nodes of a subtree, each before its children. -/
def preorder : Concrete → List Concrete
  | ⟨kind, field, start, stop, isNamed, isError, isMissing, children⟩ =>
    ⟨kind, field, start, stop, isNamed, isError, isMissing, children⟩ :: preorderAll children

/-- The nodes of a row of subtrees, in order. -/
def preorderAll : List Concrete → List Concrete
  | [] => []
  | c :: cs => preorder c ++ preorderAll cs

end

mutual

/-- The number of nodes of a subtree. -/
def size : Concrete → Nat
  | ⟨_, _, _, _, _, _, _, children⟩ => 1 + sizeAll children

/-- The number of nodes of a row of subtrees. -/
def sizeAll : List Concrete → Nat
  | [] => 0
  | c :: cs => size c + sizeAll cs

end

mutual

/-- The number of levels of a subtree; a leaf has one. -/
def height : Concrete → Nat
  | ⟨_, _, _, _, _, _, _, children⟩ => 1 + heightAll children

/-- The number of levels of the highest of a row of subtrees. -/
def heightAll : List Concrete → Nat
  | [] => 0
  | c :: cs => max (height c) (heightAll cs)

end

mutual

/-- The leaves of a subtree in order; a comment counts as one, whatever it is made of. -/
def leaves : Concrete → List Concrete
  | ⟨kind, field, start, stop, isNamed, isError, isMissing, children⟩ =>
    if children.isEmpty || kind == "comment" then
      [⟨kind, field, start, stop, isNamed, isError, isMissing, children⟩]
    else leavesAll children

/-- The leaves of a row of subtrees, in order. -/
def leavesAll : List Concrete → List Concrete
  | [] => []
  | c :: cs => leaves c ++ leavesAll cs

end

theorem preorder_eq (n : Concrete) : n.preorder = n :: preorderAll n.children := by
  cases n; rfl

theorem size_eq (n : Concrete) : n.size = 1 + sizeAll n.children := by cases n; rfl

theorem height_eq (n : Concrete) : n.height = 1 + heightAll n.children := by cases n; rfl

theorem size_pos (n : Concrete) : 0 < n.size := by rw [size_eq]; omega

theorem height_lt_of_mem {n c : Concrete} (h : c ∈ n.children) : c.height < n.height := by
  rw [height_eq n]
  suffices c.height ≤ heightAll n.children by omega
  generalize n.children = cs at h
  induction cs with
  | nil => cases h
  | cons d ds ih =>
    rcases List.mem_cons.1 h with rfl | h
    · exact Nat.le_max_left _ _
    · exact Nat.le_trans (ih h) (Nat.le_max_right _ _)

end Concrete

end UniformTree
