import UniformTree.Proofs.Comment.Runs
import UniformTree.Proofs.Positions
/-!
# Groups in source order

The groups of an ordered tree lie apart from each other and in the order of the source
(`CommentPool.laid_ofTree`), and so do the comments of a group of a nested tree
(`CommentPool.pairwise_list`). Taking a group leaves all of them where they are
(`CommentPool.laid_takeIn`).
-/

namespace UniformTree

open Concrete

variable {src : Placed} {root : Concrete}

/-! ## Comments of an ordered tree -/

namespace CommentLeaf

variable {c d : CommentLeaf}

theorem mem_preorder (hc : c ∈ root.commentLeaves) : c.node ∈ root.preorder := by
  have hleaf : c.node ∈ root.leaves :=
    (prefix_of_mem_among hc).2.subset (List.mem_append_right _ List.mem_cons_self)
  exact mem_preorder_of_leaf hleaf

theorem start_le_stop (hroot : root.Ordered) (hc : c ∈ root.commentLeaves) :
    c.node.start ≤ c.node.stop := (hroot _ (mem_preorder hc)).1

/-- A comment, what stands between it and a later one, and that one are leaves in this order. -/
theorem sublist_between (hd : d ∈ root.commentLeaves) (hcd : c.before ++ [c.node] <+: d.before) :
    (c.node :: (c.between d ++ [d.node])).Sublist root.leaves := by
  obtain ⟨rest, hrest⟩ := hcd
  have hbetween : c.between d = rest := by
    rw [between, ← hrest]
    exact List.drop_left' (by simp)
  have hprefix := (prefix_of_mem_among hd).2
  rw [← hrest, List.append_assoc, List.append_assoc, List.nil_append] at hprefix
  rw [hbetween]
  exact (List.sublist_append_right _ _).trans hprefix.sublist

end CommentLeaf

namespace Run

/-- The comments of one of the runs are some of those of the tree. -/
theorem sublist_commentLeaves {runs : List Run} (h : runs.flatMap leaves = root.commentLeaves)
    {r : Run} (hr : r ∈ runs) : r.leaves.Sublist root.commentLeaves := by
  rw [← h, List.flatMap_def]
  exact List.sublist_flatten_of_mem (List.mem_map_of_mem hr)

/-- Of two comments of an ordered tree that are in different runs the second starts after the end
of the first: no code fits between comments that touch, and these share a row. -/
theorem lt_of_not_admits (hroot : root.Ordered) {c d : CommentLeaf}
    (hd : d ∈ root.commentLeaves) (hcd : c.before ++ [c.node] <+: d.before) {r : Run}
    (h : ¬ r.Admits src c d) : c.node.stop < d.node.start := by
  have hsub := CommentLeaf.sublist_between hd hcd
  have hpairs := hroot.pairwise_leaves.sublist hsub
  rw [List.pairwise_cons, List.pairwise_append] at hpairs
  obtain ⟨hafter, -, -, hbefore⟩ := hpairs
  have hprecedes : c.node.Precedes d.node := hafter d.node (by simp)
  apply Nat.lt_of_not_le
  intro htouch
  have hrows : src.startRow d.node = src.endRow c.node := by
    rw [Placed.startRow, Placed.endRow, Nat.le_antisymm htouch hprecedes]
  apply h
  constructor
  · intro n hn
    have hstart : c.node.stop ≤ n.start := hafter n (List.mem_append_left _ hn)
    have hstop : n.stop ≤ d.node.start := hbefore n hn d.node List.mem_cons_self
    have hleaf : n ∈ root.leaves :=
      hsub.subset (List.mem_cons_of_mem _ (List.mem_append_left _ hn))
    have hle := hroot.leaf_start_le hleaf
    have hempty : n.start = n.stop := by omega
    simp [isCode, Gathering.isLayout, hempty]
  · rw [hrows]
    split
    · rfl
    · exact Nat.le_succ _

/-- A run of an ordered tree does not end before it starts. -/
theorem first_le_last (hroot : root.Ordered) {r : Run}
    (hr : r.leaves.Sublist root.commentLeaves) : r.first.node.start ≤ r.last.node.stop := by
  have hle {c : CommentLeaf} (hc : c ∈ r.leaves) : c.node.start ≤ c.node.stop :=
    CommentLeaf.start_le_stop hroot (hr.subset hc)
  have hpairs := (CommentPool.pairwise_commentLeaves hroot).sublist hr
  rw [leaves, List.pairwise_cons] at hpairs
  rcases List.mem_cons.1 r.last_mem with hlast | hlast
  · rw [hlast]
    exact hle List.mem_cons_self
  · have hfirst : r.first.node.stop ≤ r.last.node.start := hpairs.1 r.last hlast
    have hstart := hle (c := r.first) List.mem_cons_self
    have hstop := hle r.last_mem
    omega

end Run

/-! ## Groups of an ordered tree -/

/-- The group lies where its comments lie. -/
structure Slot.Lies (src : Placed) (s : Slot) : Prop where
  start_le : s.startByte ≤ s.endByte
  startRow : s.startRow = src.source.row s.startByte
  endRow : s.endRow = src.source.row s.endByte
  span : s.group.span = ⟨src.pos s.startByte, src.pos s.endByte⟩

/-- The groups lie where their comments lie, each after the end of the one before. -/
structure Laid (src : Placed) (slots : List Slot) : Prop where
  lies : ∀ s ∈ slots, s.Lies src
  apart : slots.Pairwise fun s t => s.endByte < t.startByte

/-- What relates each element to the next one relates it to all later ones, if it can be carried
along a relation of all. -/
theorem pairwise_of_isChain {α : Type} {P Q : α → α → Prop} {xs : List α}
    (h : ∀ {x y z}, Q x y → P y z → Q x z) (hP : xs.Pairwise P) (hQ : xs.IsChain Q) :
    xs.Pairwise Q := by
  induction xs with
  | nil => exact .nil
  | cons x xs ih =>
    rw [List.pairwise_cons] at hP ⊢
    refine ⟨?_, ih hP.2 hQ.tail⟩
    intro z hz
    cases xs with
    | nil => cases hz
    | cons y xs =>
      obtain ⟨hxy, -⟩ := List.isChain_cons_cons.1 hQ
      rcases List.mem_cons.1 hz with rfl | hz
      · exact hxy
      · exact h hxy (List.rel_of_pairwise_cons hP.2 hz)

/-- A later group starts and ends later, and so on no earlier row. -/
theorem Laid.le_of_le {slots : List Slot} (h : Laid src slots) {i j : Nat} {s t : Slot}
    (hs : slots[i]? = some s) (ht : slots[j]? = some t) (hij : i ≤ j) :
    s.startByte ≤ t.startByte ∧ s.endByte ≤ t.endByte ∧ s.startRow ≤ t.startRow ∧
      s.endRow ≤ t.endRow := by
  have hsin := List.mem_of_getElem? hs
  have htin := List.mem_of_getElem? ht
  have hbytes : s.startByte ≤ t.startByte ∧ s.endByte ≤ t.endByte := by
    rcases Nat.eq_or_lt_of_le hij with rfl | hlt
    · cases hs.symm.trans ht
      exact ⟨Nat.le_refl _, Nat.le_refl _⟩
    · obtain ⟨hi, rfl⟩ := List.getElem?_eq_some_iff.1 hs
      obtain ⟨hj, rfl⟩ := List.getElem?_eq_some_iff.1 ht
      have hapart := List.pairwise_iff_getElem.1 h.apart i j hi hj hlt
      have hstart := (h.lies _ hsin).start_le
      have hstart' := (h.lies _ htin).start_le
      omega
  rw [(h.lies s hsin).startRow, (h.lies t htin).startRow, (h.lies s hsin).endRow,
    (h.lies t htin).endRow]
  exact ⟨hbytes.1, hbytes.2, src.source.row_mono hbytes.1, src.source.row_mono hbytes.2⟩

namespace CommentPool

/-- The groups of an ordered tree lie one after the other. -/
theorem laid_ofTree (src : Placed) (hroot : root.Ordered) :
    Laid src (ofTree src root).slots.toList := by
  obtain ⟨runs, hslots, hleaves, -, happart⟩ := exists_runs src root
  have hsub {r : Run} (hr : r ∈ runs) : r.leaves.Sublist root.commentLeaves :=
    Run.sublist_commentLeaves hleaves hr
  have hbefore : runs.Pairwise fun r s =>
      ∀ c ∈ r.leaves, ∀ d ∈ s.leaves, c.before ++ [c.node] <+: d.before := by
    have hall := CommentLeaf.pairwise_among [] root.leaves
    rw [← Concrete.commentLeaves, ← hleaves, List.pairwise_flatMap] at hall
    exact hall.2
  have hstarts : runs.Pairwise fun r s => r.first.node.start ≤ s.first.node.start := by
    apply hbefore.imp_of_mem
    intro r s hr hs hrs
    have hprefix := hrs r.first List.mem_cons_self s.first List.mem_cons_self
    have hfirst := (hsub hr).subset (List.mem_cons_self (a := r.first))
    have hpair := hroot.pairwise_leaves.sublist
      (CommentLeaf.sublist_between ((hsub hs).subset List.mem_cons_self) hprefix)
    have hprecedes : r.first.node.stop ≤ s.first.node.start :=
      List.rel_of_pairwise_cons hpair (by simp)
    exact Nat.le_trans (CommentLeaf.start_le_stop hroot hfirst) hprecedes
  have hnext : runs.IsChain fun r s => r.last.node.stop < s.first.node.start := by
    rw [List.isChain_iff_forall_rel_of_append_cons_cons] at happart ⊢
    intro r s early late hsplit
    have hrs : [r, s].Sublist runs := by
      rw [hsplit]
      exact (List.infix_append' early [r, s] late).sublist
    have hprefix := List.pairwise_pair.1 (hbefore.sublist hrs) r.last r.last_mem s.first
      List.mem_cons_self
    have hs : s ∈ runs := hrs.subset (by simp)
    exact Run.lt_of_not_admits hroot ((hsub hs).subset List.mem_cons_self) hprefix
      (happart hsplit)
  rw [hslots]
  constructor
  · rw [List.forall_mem_map]
    intro r hr
    exact ⟨Run.first_le_last hroot (hsub hr), rfl, rfl, rfl⟩
  · rw [List.pairwise_map]
    exact pairwise_of_isChain Nat.lt_of_lt_of_le hstarts hnext

/-! ## Comments of a group -/

/-- The span of the group of a run reaches from the first comment to the last one. -/
theorem span_slot (src : Placed) (r : Run) :
    (r.slot src).group.span = Span.coverAll ((r.slot src).group.list.map (·.span)) := by
  have hspans : (r.slot src).group.list.map (·.span) = r.leaves.map fun c => src.span c.node := by
    rw [Run.slot, List.map_map]
    rfl
  rw [hspans, Span.coverAll, List.getLast?_map, r.getLast?_leaves]
  rfl

/-- The comments of a group that nobody owns lie in the group, one after the other. -/
theorem pairwise_list (hroot : root.Nested) (hfit : src.base.toNat + root.stop ≤ Positions.limit)
    {g : CommentGroup} (hg : g ∈ (ofTree src root).remaining) :
    (∀ c ∈ g.list, c.span.Inside g.span) ∧
      g.list.Pairwise fun c d => c.span.Precedes d.span := by
  obtain ⟨runs, hslots, hleaves, -⟩ := exists_runs src root
  obtain ⟨s, hs, rfl⟩ := List.mem_map.1 hg
  rw [hslots] at hs
  obtain ⟨r, hr, rfl⟩ := List.mem_map.1 (List.mem_of_mem_filter hs)
  have hsub := Run.sublist_commentLeaves hleaves hr
  have hcomment {c : CommentLeaf} (hc : c ∈ r.leaves) : c.node.start ≤ c.node.stop ∧
      src.base.toNat + c.node.stop ≤ Positions.limit := by
    have hstop := (hroot.bounds (CommentLeaf.mem_preorder (hsub.subset hc))).2
    exact ⟨CommentLeaf.start_le_stop hroot.ordered (hsub.subset hc), by omega⟩
  have hpairs : (r.slot src).group.list.Pairwise fun c d => c.span.Precedes d.span := by
    show (r.leaves.map fun c => Comment.ofLeaf src c.node).Pairwise _
    rw [List.pairwise_map]
    apply ((pairwise_commentLeaves hroot.ordered).sublist hsub).imp_of_mem
    intro c d _ hd hcd
    obtain ⟨hle, hfit⟩ := hcomment hd
    exact Placed.pos_le_pos hcd (by omega)
  refine ⟨?_, hpairs⟩
  intro c hc
  rw [span_slot]
  apply Span.inside_coverAll
  · rw [List.forall_mem_map]
    intro c hc
    obtain ⟨leaf, hleaf, rfl⟩ := List.mem_map.1 hc
    obtain ⟨hle, hfit⟩ := hcomment hleaf
    exact Placed.pos_le_pos hle hfit
  · rw [List.pairwise_map]
    exact hpairs
  · exact List.mem_map_of_mem hc

/-! ## Taking a group -/

/-- Who owns a group does not matter for where it lies. -/
def unowned (s : Slot) : Slot := { s with taken := false }

theorem map_unowned_modify (slots : List Slot) (i : Nat) :
    (slots.modify i marked).map unowned = slots.map unowned := by
  induction slots generalizing i with
  | nil => cases i <;> rfl
  | cons s slots ih =>
    cases i with
    | zero => rfl
    | succ i =>
      rw [List.modify_succ_cons, List.map_cons, List.map_cons, ih]

theorem laid_map_unowned {slots : List Slot} : Laid src (slots.map unowned) ↔ Laid src slots := by
  have hlies (s : Slot) : (unowned s).Lies src ↔ s.Lies src :=
    ⟨fun ⟨h, i, j, k⟩ => ⟨h, i, j, k⟩, fun ⟨h, i, j, k⟩ => ⟨h, i, j, k⟩⟩
  constructor
  · rintro ⟨h, hapart⟩
    rw [List.pairwise_map] at hapart
    exact ⟨fun s hs => (hlies s).1 (h _ (List.mem_map_of_mem hs)), hapart⟩
  · rintro ⟨h, hapart⟩
    constructor
    · rw [List.forall_mem_map]
      exact fun s hs => (hlies s).2 (h s hs)
    · rw [List.pairwise_map]
      exact hapart

theorem laid_takeIn {pool : CommentPool} (h : Laid src pool.slots.toList) (fits : Slot → Bool)
    (lo hi : Nat) : Laid src (pool.takeIn fits lo hi).2.slots.toList := by
  unfold takeIn
  split
  · rw [← laid_map_unowned, Array.toList_modify]
    have hsame := map_unowned_modify pool.slots.toList
    unfold marked at hsame
    rw [hsame, laid_map_unowned]
    exact h
  · exact h

end CommentPool

end UniformTree
