import UniformTree.Comment.Pool
/-!
# The pool holds each comment once

Gathering puts each comment leaf into one group, and a group that is taken is taken out of what
remains and out of nothing else. So what was taken and what remains are the comments of the tree.
-/

namespace UniformTree

/-- A comment leaf as a comment: its span and its text. -/
def Comment.ofLeaf (src : Placed) (n : Concrete) : Comment := ⟨src.span n, src.text n⟩

/-- The comments of a tree, in source order. -/
def Concrete.comments (src : Placed) (root : Concrete) : List Comment :=
  (root.leaves.filter isComment).map (Comment.ofLeaf src)

namespace Gathering

/-- The comments of the groups so far, in source order. -/
def gathered (g : Gathering) : List Comment := g.slots.reverse.flatMap (·.group.list)

/-- None of the groups has an owner. -/
def IsFree (g : Gathering) : Prop := ∀ s ∈ g.slots, s.taken = false

/-- A comment joins the last group or begins one; any other leaf changes no group. -/
theorem gathered_add (src : Placed) (g : Gathering) (n : Concrete) :
    (g.add src n).gathered =
      g.gathered ++ if n.isComment then [Comment.ofLeaf src n] else [] := by
  unfold add
  by_cases hn : n.isComment = true
  · rw [if_pos hn, if_pos hn]
    rcases hs : g.slots with _ | ⟨last, before⟩
    · simp [gathered, hs, Slot.ofComment, Comment.ofLeaf]
    · simp only
      split <;> simp [gathered, hs, Slot.ofComment, Slot.push, Comment.ofLeaf]
  · rw [if_neg hn, if_neg hn, List.append_nil]
    split <;> rfl

theorem isFree_add (src : Placed) {g : Gathering} (h : g.IsFree) (n : Concrete) :
    (g.add src n).IsFree := by
  unfold add
  by_cases hn : n.isComment = true
  · rw [if_pos hn]
    unfold IsFree at h
    rcases hs : g.slots with _ | ⟨last, before⟩
    · simp [IsFree, Slot.ofComment]
    · rw [hs, List.forall_mem_cons] at h
      simp only
      split
      · exact List.forall_mem_cons.2 ⟨h.1, h.2⟩
      · exact List.forall_mem_cons.2 ⟨rfl, List.forall_mem_cons.2 h⟩
  · rw [if_neg hn]
    split <;> exact h

theorem gathered_foldl (src : Placed) (ns : List Concrete) (g : Gathering) :
    (ns.foldl (add src) g).gathered =
      g.gathered ++ (ns.filter Concrete.isComment).map (Comment.ofLeaf src) := by
  induction ns generalizing g with
  | nil => simp
  | cons n ns ih =>
    rw [List.foldl_cons, ih, gathered_add, List.append_assoc, List.filter_cons]
    split <;> rfl

theorem isFree_foldl (src : Placed) (ns : List Concrete) {g : Gathering} (h : g.IsFree) :
    (ns.foldl (add src) g).IsFree := by
  induction ns generalizing g with
  | nil => exact h
  | cons n ns ih => exact ih (isFree_add src h n)

end Gathering

namespace CommentPool

/-- At first everything remains: the groups hold the comments of the tree, each once. -/
theorem remaining_ofTree (src : Placed) (root : Concrete) :
    (ofTree src root).remaining.flatMap (·.list) = root.comments src := by
  have hfree : (root.leaves.foldl (Gathering.add src) Gathering.empty).IsFree :=
    Gathering.isFree_foldl src _ (by simp [Gathering.IsFree, Gathering.empty])
  have hgathered := Gathering.gathered_foldl src root.leaves Gathering.empty
  have hall : ∀ s ∈ (root.leaves.foldl (Gathering.add src) Gathering.empty).slots.reverse,
      (!s.taken) = true := fun s hs => by rw [hfree s (List.mem_reverse.1 hs)]; rfl
  rw [remaining, ofTree, List.filter_eq_self.2 hall, List.flatMap_map]
  exact hgathered

/-! ## Taking groups -/

/-- The mark that a group has an owner. -/
def marked (s : Slot) : Slot := { s with taken := true }

variable {fits : Slot → Bool} {g : CommentGroup}

theorem firstFree?_some {slots : Array Slot} {lo hi i : Nat}
    (h : firstFree? slots fits lo hi = some i) : ∃ s, slots[i]? = some s ∧ s.taken = false := by
  have hi := List.find?_some h
  split at hi
  · rename_i s hs
    refine ⟨s, hs, ?_⟩
    rw [Bool.and_eq_true, Bool.not_eq_true'] at hi
    exact hi.1
  · cases hi

/-- Marking a group takes it, and only it, out of what remains. -/
theorem perm_remaining_modify {slots : List Slot} {i : Nat} {s : Slot} (hs : slots[i]? = some s)
    (hfree : s.taken = false) :
    ((slots.filter fun s => !s.taken).map (·.group)).Perm
      (s.group :: ((slots.modify i marked).filter fun s => !s.taken).map (·.group)) := by
  induction slots generalizing i with
  | nil => cases hs
  | cons t slots ih =>
    cases i with
    | zero =>
      cases hs
      simp [hfree, marked]
    | succ i =>
      have := ih hs
      rw [List.modify_succ_cons, List.filter_cons, List.filter_cons]
      split
      · rw [List.map_cons, List.map_cons]
        exact (this.cons t.group).trans (List.Perm.swap _ _ _)
      · exact this

/-- What is taken is what no longer remains. -/
theorem perm_remaining_takeIn (pool : CommentPool) (fits : Slot → Bool) (lo hi : Nat) :
    pool.remaining.Perm
      ((pool.takeIn fits lo hi).1.toList ++ (pool.takeIn fits lo hi).2.remaining) := by
  unfold takeIn
  split
  · rename_i i hi
    obtain ⟨s, hs, hfree⟩ := firstFree?_some hi
    rw [hs]
    simp only [remaining, Array.toList_modify]
    rw [← Array.getElem?_toList] at hs
    exact perm_remaining_modify hs hfree
  · exact List.Perm.refl _

end CommentPool

end UniformTree
