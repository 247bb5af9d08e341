import UniformTree.Concrete.Basic
/-!
# Cursors

A place in a concrete tree from which one can go to the first child, to the next sibling and back
to the parent, without recursion. `Descent` goes through a tree this way in pre-order and counts
how deep it is; `tooDeep?` stops at the first node below a limit.
-/

namespace UniformTree

/-- A node of a tree and the way back from it. -/
structure Cursor where
  node : Concrete
  /-- The siblings after the node. -/
  right : List Concrete
  /-- The ancestors, from the parent on, each with the siblings after it. -/
  up : List (Concrete × List Concrete)

namespace Cursor

/-- The cursor at the root of a tree. -/
def root (n : Concrete) : Cursor := ⟨n, [], []⟩

/-- To the first child, if there is one. -/
def firstChild? (c : Cursor) : Option Cursor :=
  match c.node.children with
  | [] => none
  | child :: rest => some ⟨child, rest, (c.node, c.right) :: c.up⟩

/-- To the next sibling, if there is one. -/
def nextSibling? (c : Cursor) : Option Cursor :=
  match c.right with
  | [] => none
  | sibling :: rest => some ⟨sibling, rest, c.up⟩

/-- To the parent, if the cursor is not at the root. -/
def parent? (c : Cursor) : Option Cursor :=
  match c.up with
  | [] => none
  | (parent, rest) :: up => some ⟨parent, rest, up⟩

/-- How many nodes come after the subtree of the cursor in pre-order. -/
def after (c : Cursor) : Nat :=
  Concrete.sizeAll c.right + c.up.foldr (fun u n => Concrete.sizeAll u.2 + n) 0

/-- How many nodes come at or after the cursor in pre-order. -/
def pending (c : Cursor) : Nat := c.node.size + c.after

theorem pending_firstChild {c d : Cursor} (h : c.firstChild? = some d) :
    d.pending + 1 = c.pending := by
  unfold firstChild? at h
  split at h
  · cases h
  · rename_i child rest hc
    cases h
    simp only [pending, after, Concrete.size_eq c.node, hc, Concrete.sizeAll, List.foldr_cons]
    omega

theorem pending_nextSibling {c d : Cursor} (h : c.nextSibling? = some d) :
    d.pending = c.after := by
  unfold nextSibling? at h
  split at h
  · cases h
  · rename_i sibling rest hr
    cases h
    simp only [pending, after, hr, Concrete.sizeAll]
    omega

theorem after_parent {c d : Cursor} (h : c.parent? = some d) (hr : c.nextSibling? = none) :
    d.after = c.after := by
  unfold parent? at h
  unfold nextSibling? at hr
  split at h
  · cases h
  · rename_i parent rest up hu
    cases h
    split at hr
    · rename_i hright
      simp [after, hright, hu, Concrete.sizeAll]
    · cases hr

theorem up_length_parent {c d : Cursor} (h : c.parent? = some d) :
    d.up.length + 1 = c.up.length := by
  unfold parent? at h
  split at h
  · cases h
  · rename_i hu
    cases h
    simp [hu]

end Cursor

/-- A cursor on its way through a tree, with how deep it lies and how many nodes it has passed. -/
structure Descent where
  cursor : Cursor
  depth : Nat
  passed : Nat

namespace Descent

/-- At the root of a tree. -/
def start (root : Concrete) : Descent := ⟨Cursor.root root, 0, 0⟩

/-- To the next node after the current subtree: the next sibling of the node or else of the
nearest ancestor that has one. Each step up takes one off the depth. -/
def leave? (d : Descent) : Option Descent :=
  match d.cursor.nextSibling? with
  | some c => some ⟨c, d.depth, d.passed + 1⟩
  | none =>
    match hp : d.cursor.parent? with
    | some c => leave? ⟨c, d.depth - 1, d.passed⟩
    | none => none
termination_by d.cursor.up.length
decreasing_by have := Cursor.up_length_parent hp; omega

/-- To the next node in pre-order. -/
def next? (d : Descent) : Option Descent :=
  match d.cursor.firstChild? with
  | some c => some ⟨c, d.depth + 1, d.passed + 1⟩
  | none => d.leave?

theorem pending_leave {d e : Descent} (h : d.leave? = some e) :
    e.cursor.pending = d.cursor.after := by
  fun_induction leave? d with
  | case1 d c hs => cases h; exact Cursor.pending_nextSibling hs
  | case2 d hs c hp ih => rw [ih h]; exact Cursor.after_parent hp hs
  | case3 => cases h

theorem pending_next {d e : Descent} (h : d.next? = some e) :
    e.cursor.pending < d.cursor.pending := by
  unfold next? at h
  split at h
  · rename_i hc
    cases h
    have := Cursor.pending_firstChild hc
    simp only
    omega
  · have := d.cursor.node.size_pos
    rw [pending_leave h, Cursor.pending]
    omega

/-- The first node from here on that lies deeper than the limit, with the number of nodes that
come before it. -/
def tooDeep? (limit : Nat) (d : Descent) : Option (Nat × Concrete) :=
  if limit < d.depth then some (d.passed, d.cursor.node)
  else
    match _hn : d.next? with
    | some e => tooDeep? limit e
    | none => none
termination_by d.cursor.pending
decreasing_by exact pending_next _hn

end Descent

namespace Concrete

/-- The first node in pre-order that lies more than `limit` levels below the root, with its number
in pre-order. -/
def tooDeep? (root : Concrete) (limit : Nat) : Option (Nat × Concrete) :=
  (Descent.start root).tooDeep? limit

end Concrete

end UniformTree
