import UniformTree.Ast.Children
/-!
# Walking a source tree

A visitor is told of every node before its children and, unless it skips the node, once more after
them. What it answers on leaving the node where the walk began is what the walk comes to.
-/

namespace UniformTree

/-- What becomes of the children of a node. -/
inductive Descend where
  | children
  /-- Neither the children are visited nor the node left. -/
  | skip
deriving DecidableEq, Repr

/-- How a walk is followed, with a state `σ` and results `ω`. -/
structure Visitor (σ ω : Type) where
  /-- A node is entered. -/
  enter : Node → σ → Descend × σ
  /-- The node that was entered last and not yet left is left. -/
  leave : σ → Option ω × σ

namespace Visitor

variable {σ ω : Type}

/-- Walk a node and what lies below it. -/
def walk (v : Visitor σ ω) (n : Node) (s : σ) : Option ω × σ :=
  match v.enter n s with
  | (.skip, s) => (none, s)
  | (.children, s) => v.leave (n.children.attach.foldl (fun s c => (v.walk c.1 s).2) s)
termination_by n.weight
decreasing_by exact Node.weight_lt_of_mem_children c.2

/-- Walk nodes one after the other. -/
def walkAll (v : Visitor σ ω) (ns : List Node) (s : σ) : σ :=
  ns.foldl (fun s c => (v.walk c s).2) s

theorem walk_eq (v : Visitor σ ω) (n : Node) (s : σ) :
    v.walk n s =
      match v.enter n s with
      | (.skip, s) => (none, s)
      | (.children, s) => v.leave (v.walkAll n.children s) := by
  rw [walk]
  split
  · rfl
  · rw [walkAll, List.foldl_attach (f := fun s c => (v.walk c s).2)]

end Visitor

end UniformTree
