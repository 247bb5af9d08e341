import Mathlib.Data.List.Basic
import UniformTree.Proofs.Concrete.Subtrees
/-!
# Trees in source order

A tree is ordered if siblings do not overlap: whatever lies in the first of two comes before
whatever lies in the second. Then the leaves of the tree stand in the order of the source. A tree is
nested if siblings come one after the other and lie within their parent; a nested tree is ordered.
-/

namespace UniformTree

namespace Concrete

/-- The node ends before another one starts, or where it starts. -/
def Precedes (c d : Concrete) : Prop := c.stop ≤ d.start

instance : DecidableRel Precedes := fun c d => inferInstanceAs (Decidable (c.stop ≤ d.start))

/-- No node ends before it starts, and what lies in a sibling comes before what lies in a later
one. -/
def Ordered (n : Concrete) : Prop :=
  ∀ p ∈ n.preorder, p.start ≤ p.stop ∧
    p.children.Pairwise fun c d => ∀ x ∈ c.preorder, ∀ y ∈ d.preorder, x.Precedes y

instance (n : Concrete) : Decidable n.Ordered :=
  inferInstanceAs (Decidable (∀ p ∈ n.preorder, p.start ≤ p.stop ∧
    p.children.Pairwise fun c d => ∀ x ∈ c.preorder, ∀ y ∈ d.preorder, x.Precedes y))

/-- No node ends before it starts, and the children of a node lie within it, one after the
other. -/
def Nested (n : Concrete) : Prop :=
  ∀ p ∈ n.preorder, p.start ≤ p.stop ∧ (∀ c ∈ p.children, p.start ≤ c.start ∧ c.stop ≤ p.stop) ∧
    p.children.Pairwise Precedes

instance (n : Concrete) : Decidable n.Nested :=
  inferInstanceAs (Decidable (∀ p ∈ n.preorder, p.start ≤ p.stop ∧
    (∀ c ∈ p.children, p.start ≤ c.start ∧ c.stop ≤ p.stop) ∧ p.children.Pairwise Precedes))

variable {n c : Concrete}

/-! ## Leaves -/

theorem leavesAll_eq (cs : List Concrete) : leavesAll cs = cs.flatMap leaves := by
  induction cs with
  | nil => rfl
  | cons c cs ih => rw [leavesAll, ih, List.flatMap_cons]

theorem leaves_eq (n : Concrete) : n.leaves =
    if n.children.isEmpty || n.isComment then [n] else n.children.flatMap leaves := by
  rcases n with ⟨kind, field, start, stop, isNamed, isError, isMissing, children⟩
  rw [leaves, leavesAll_eq]
  rfl

theorem Ordered.of_mem (h : n.Ordered) (hc : c ∈ n.preorder) : c.Ordered :=
  fun p hp => h p (mem_preorder_trans hp hc)

/-- The leaves of an ordered tree stand one after the other. -/
theorem Ordered.pairwise_leaves (h : n.Ordered) : n.leaves.Pairwise Precedes := by
  induction n using induction with
  | step n ih =>
    rw [leaves_eq]
    by_cases hleaf : (n.children.isEmpty || n.isComment) = true
    · rw [if_pos hleaf]
      exact List.pairwise_singleton _ _
    · rw [if_neg hleaf, List.pairwise_flatMap]
      constructor
      · intro c hc
        exact ih c hc (h.of_mem (mem_preorder_of_child hc))
      · apply (h n n.mem_preorder_self).2.imp
        intro c d hcd x hx y hy
        exact hcd x (mem_preorder_of_leaf hx) y (mem_preorder_of_leaf hy)

theorem Ordered.leaf_start_le (h : n.Ordered) (hc : c ∈ n.leaves) : c.start ≤ c.stop :=
  (h c (mem_preorder_of_leaf hc)).1

/-- Of nodes that stand one after the other the last one ends last. -/
theorem stop_le_of_getLast? {ns : List Concrete} (h : ns.Pairwise Precedes)
    (hle : ∀ d ∈ ns, d.start ≤ d.stop) (hlast : ns.getLast? = some n) (hc : c ∈ ns) :
    c.stop ≤ n.stop := by
  obtain ⟨init, rfl⟩ := List.getLast?_eq_some_iff.1 hlast
  rw [List.pairwise_append] at h
  rcases List.mem_append.1 hc with hc | hc
  · exact Nat.le_trans (h.2.2 c hc n List.mem_cons_self) (hle n (by simp))
  · exact Nat.le_of_eq (congrArg stop (List.mem_singleton.1 hc))

/-! ## Nested trees -/

theorem Nested.of_mem (h : n.Nested) (hc : c ∈ n.preorder) : c.Nested :=
  fun p hp => h p (mem_preorder_trans hp hc)

theorem Nested.start_le_stop (h : n.Nested) : n.start ≤ n.stop := (h n n.mem_preorder_self).1

/-- Whatever lies in the subtree of a node lies within the node. -/
theorem Nested.bounds (h : n.Nested) (hc : c ∈ n.preorder) :
    n.start ≤ c.start ∧ c.stop ≤ n.stop := by
  induction n using induction with
  | step n ih =>
    rcases mem_preorder.1 hc with rfl | hc
    · exact ⟨Nat.le_refl _, Nat.le_refl _⟩
    · obtain ⟨d, hd, hcd⟩ := mem_descendants.1 hc
      obtain ⟨hstart, hstop⟩ := (h n n.mem_preorder_self).2.1 d hd
      obtain ⟨hstart', hstop'⟩ := ih d hd (h.of_mem (mem_preorder_of_child hd)) hcd
      exact ⟨Nat.le_trans hstart hstart', Nat.le_trans hstop' hstop⟩

theorem Nested.ordered (h : n.Nested) : n.Ordered := by
  intro p hp
  obtain ⟨hle, -, hpairs⟩ := h p hp
  refine ⟨hle, hpairs.imp_of_mem ?_⟩
  intro c d hc hd hcd x hx y hy
  have hin {e : Concrete} (he : e ∈ p.children) : e.Nested :=
    h.of_mem (mem_preorder_trans (mem_preorder_of_child he) hp)
  have hxc := ((hin hc).bounds hx).2
  have hdy := ((hin hd).bounds hy).1
  unfold Precedes at hcd ⊢
  omega

end Concrete

end UniformTree
