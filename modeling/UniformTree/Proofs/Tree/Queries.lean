import UniformTree.Tree.Basic
/-!
# Queries by a stack and by recursion

The queries take a tree off a stack and put its children in its place. What they come to is a
property of the whole stack: the nodes of all of its trees, or the highest summit among them.
-/

namespace UniformTree

namespace Tree

/-! ## Pre-order -/

theorem nodesAll_append (ts us : List Tree) : nodesAll (ts ++ us) = nodesAll ts ++ nodesAll us := by
  induction ts with
  | nil => rfl
  | cons t ts ih => rw [List.cons_append, nodesAll, nodesAll, ih, List.append_assoc]

theorem preorderOf_eq (stack : List Tree) : preorderOf stack = nodesAll stack := by
  fun_induction preorderOf stack with
  | case1 => rfl
  | case2 t stack ih => rw [ih, nodesAll_append, nodesAll, nodes_eq, List.cons_append]

theorem preorder_eq (t : Tree) : t.preorder = t.nodes := by
  rw [preorder, preorderOf_eq, nodesAll, nodesAll, List.append_nil]

/-! ## Depth -/

theorem levelsAll_le {ts : List Tree} {k : Nat} :
    levelsAll ts ≤ k ↔ ∀ t ∈ ts, t.levels ≤ k := by
  induction ts with
  | nil => simp [levelsAll]
  | cons t ts ih => rw [levelsAll, Nat.max_le, ih, List.forall_mem_cons]

/-- The highest level that a tree on the stack reaches; each lies at its own level. -/
def summit : List (Tree × Nat) → Nat
  | [] => 0
  | (t, level) :: stack => max (level + levelsAll t.children) (summit stack)

theorem summit_append (s r : List (Tree × Nat)) : summit (s ++ r) = max (summit s) (summit r) := by
  induction s with
  | nil => simp [summit]
  | cons p s ih => simp only [List.cons_append, summit, ih, Nat.max_assoc]

/-- The children of a node reach as high as the node does. -/
theorem max_summit_stacked (level : Nat) (ts : List Tree) :
    max level (summit (stacked (level + 1) ts)) = level + levelsAll ts := by
  induction ts with
  | nil => simp [stacked, summit, levelsAll]
  | cons t ts ih =>
    have h : stacked (level + 1) (t :: ts) = stacked (level + 1) ts ++ [(t, level + 1)] := by
      simp [stacked]
    rw [h, summit_append, summit, summit, levelsAll, levels_eq]
    omega

theorem deepest_eq (seen : Nat) (stack : List (Tree × Nat)) :
    deepest seen stack = max seen (summit stack) := by
  fun_induction deepest seen stack with
  | case1 seen => exact (Nat.max_zero seen).symm
  | case2 seen t level stack ih =>
    have h := max_summit_stacked level t.children
    rw [ih, summit_append, summit]
    omega

theorem depth_eq (t : Tree) : t.depth = t.levels := by
  rw [depth, deepest_eq, summit, summit, levels_eq]
  omega

end Tree

end UniformTree
