import Mathlib.Data.List.Pairwise
import UniformTree.Proofs.Comment.Requests
/-!
# Groups that are free

Groups are only ever taken, so a pool is known by its free groups: a request gets the first of them
that fits, and that one is no longer free (`CommentPool.takeDoc_eq_find`). A group that stands alone
starts on a row below the end of any group before it (`CommentPool.pairwise_rows`), so at most one
group can document a node, and once the node has asked for its doc none is left that could.
-/

namespace UniformTree

open Concrete

/-! ## The first element that fits -/

section EraseFirst

variable {α : Type} {p : α → Bool} {R : α → α → Prop} {xs : List α} {x y : α}

/-- An element that fits and is not the first one that does comes after that one. -/
theorem rel_of_mem_eraseP (h : xs.Pairwise R) (hx : xs.find? p = some x) (hy : y ∈ xs.eraseP p)
    (hp : p y = true) : R x y := by
  induction xs with
  | nil => cases hx
  | cons z xs ih =>
    rw [List.pairwise_cons] at h
    by_cases hz : p z = true
    · rw [List.find?_cons_of_pos hz] at hx
      rw [List.eraseP_cons_of_pos hz] at hy
      cases hx
      exact h.1 y hy
    · rw [List.find?_cons_of_neg hz] at hx
      rw [List.eraseP_cons_of_neg hz] at hy
      rcases List.mem_cons.1 hy with rfl | hy
      · exact absurd hp hz
      · exact ih h.2 hx hy

end EraseFirst

/-! ## Lone groups and their rows -/

namespace Run

open CommentLeaf

variable {src : Placed} {root : Concrete} {r s : Run}

/-- A comment is trailing if code stands between it and an earlier comment that ends on its row. -/
theorem isTrailing_of_code (hroot : root.Ordered) {c d : CommentLeaf}
    (hd : d ∈ root.commentLeaves) (hcd : c.before ++ [c.node] <+: d.before) {n : Concrete}
    (hn : n ∈ c.between d) (hcode : n.isCode = true)
    (hrow : src.startRow d.node ≤ src.endRow c.node) : d.isTrailing src = true := by
  have hprefix := (prefix_of_mem_among hd).2
  have hleaf : ∀ x ∈ d.before, x ∈ root.leaves := fun x hx =>
    hprefix.subset (List.mem_append_left _ hx)
  have hleaves : (d.before ++ [d.node]).Pairwise Precedes :=
    hroot.pairwise_leaves.sublist hprefix.sublist
  rw [List.pairwise_append] at hleaves
  obtain ⟨hbefore, -, hlast⟩ := hleaves
  have hin : n ∈ d.before := List.mem_of_mem_drop hn
  have hcodes : n ∈ d.before.filter isCode := List.mem_filter.2 ⟨hin, hcode⟩
  obtain ⟨m, hm⟩ := Option.isSome_iff_exists.1 (List.getLast?_isSome.2 (List.ne_nil_of_mem hcodes))
  have hm' : m ∈ d.before := List.mem_of_mem_filter (List.mem_of_getLast? hm)
  -- the code after the first comment lies on the row that both share, and so does the last code
  have hafter : c.node.stop ≤ n.start := by
    have hpairs := hroot.pairwise_leaves.sublist (sublist_between hd hcd)
    exact (List.pairwise_cons.1 hpairs).1 n (List.mem_append_left _ hn)
  have hle : n.start ≤ n.stop := hroot.leaf_start_le (hleaf n hin)
  have hstop : n.stop ≤ m.stop := stop_le_of_getLast? (hbefore.filter isCode)
    (fun x hx => hroot.leaf_start_le (hleaf x (List.mem_of_mem_filter hx))) hm hcodes
  have hfirst : src.endRow c.node ≤ src.endRow m := src.source.row_mono (by omega)
  have hsecond : src.endRow m ≤ src.startRow d.node :=
    src.source.row_mono (hlast m hm' d.node List.mem_cons_self)
  rw [isTrailing, hm, Option.any_some, beq_iff_eq]
  omega

end Run

namespace CommentPool

open Request CommentLeaf

variable {src : Placed} {root : Concrete} {p q : CommentPool}

/-- A group that stands alone starts below the row on which the group before it ends. -/
theorem isChain_rows (src : Placed) (hroot : root.Ordered) :
    (ofTree src root).slots.toList.IsChain fun s t => t.trailing = false →
      s.endRow < t.startRow := by
  obtain ⟨runs, hslots, hleaves, -, happart⟩ := exists_runs src root
  rw [hslots, List.isChain_map]
  rw [List.isChain_iff_forall_rel_of_append_cons_cons] at happart ⊢
  intro r s early late hsplit hlone
  have hrs : [r, s].Sublist runs := by
    rw [hsplit]
    exact (List.infix_append' early [r, s] late).sublist
  have hs : s.first ∈ root.commentLeaves :=
    (Run.sublist_commentLeaves hleaves (hrs.subset (by simp))).subset List.mem_cons_self
  have hprefix : r.last.before ++ [r.last.node] <+: s.first.before := by
    have hall := pairwise_among [] root.leaves
    rw [← Concrete.commentLeaves, ← hleaves, List.pairwise_flatMap] at hall
    exact List.pairwise_pair.1 (hall.2.sublist hrs) r.last r.last_mem s.first List.mem_cons_self
  have hprecedes : r.last.node.stop ≤ s.first.node.start := by
    have hpair := hroot.pairwise_leaves.sublist (sublist_between hs hprefix)
    exact List.rel_of_pairwise_cons hpair (by simp)
  apply Nat.lt_of_not_le
  intro hrow
  have hsame : src.startRow s.first.node = src.endRow r.last.node :=
    Nat.le_antisymm hrow (src.source.row_mono hprecedes)
  apply happart hsplit
  constructor
  · intro n hn
    rw [Bool.eq_false_iff]
    intro hcode
    have htrailing := Run.isTrailing_of_code hroot hs hprefix hn hcode hrow
    rw [show s.first.isTrailing src = false from hlone] at htrailing
    cases htrailing
  · rw [hsame]
    split
    · rfl
    · exact Nat.le_succ _

/-- A group that stands alone starts below the row on which any group before it ends. -/
theorem pairwise_rows (src : Placed) (hroot : root.Ordered) :
    (ofTree src root).slots.toList.Pairwise fun s t => t.trailing = false →
      s.endRow < t.startRow := by
  have hlaid := laid_ofTree src hroot
  have hchain := List.isChain_iff_getElem.1 (isChain_rows src hroot)
  rw [List.pairwise_iff_getElem]
  intro i j hi hj hij hlone
  obtain ⟨k, rfl⟩ : ∃ k, j = k + 1 := ⟨j - 1, by omega⟩
  obtain ⟨-, -, -, hle⟩ := hlaid.le_of_le (List.getElem?_eq_getElem hi)
    (List.getElem?_eq_getElem (Nat.lt_of_succ_lt hj)) (Nat.le_of_lt_succ hij)
  exact Nat.lt_of_le_of_lt hle (hchain k hj hlone)

/-- At most one group documents a node. -/
theorem pairwise_documents (src : Placed) (hroot : root.Ordered) (n : Concrete) :
    (ofTree src root).slots.toList.Pairwise fun s t =>
      documents src n s = true → documents src n t = false := by
  have hlaid := laid_ofTree src hroot
  apply (pairwise_rows src hroot).imp_of_mem
  intro s t hs ht hrows hdocs
  rw [Bool.eq_false_iff]
  intro hdoct
  obtain ⟨-, -, hs⟩ := documents_iff.1 hdocs
  obtain ⟨hlone, -, hrow⟩ := documents_iff.1 hdoct
  have hlt := hrows hlone
  have hle : t.startRow ≤ t.endRow := by
    rw [(hlaid.lies t ht).startRow, (hlaid.lies t ht).endRow]
    exact src.source.row_mono (hlaid.lies t ht).start_le
  omega

/-! ## Groups are only ever taken -/

/-- The second pool is the first one with some of its free groups taken. -/
structure Before (p q : CommentPool) : Prop where
  same : q.slots.toList.map unowned = p.slots.toList.map unowned
  free : q.free.Sublist p.free

theorem Before.refl (p : CommentPool) : p.Before p := ⟨rfl, List.Sublist.refl _⟩

theorem Before.trans {r : CommentPool} (h : p.Before q) (h' : q.Before r) : p.Before r :=
  ⟨h'.same.trans h.same, h'.free.trans h.free⟩

theorem before_takeIn (pool : CommentPool) (fits : Slot → Bool) (lo hi : Nat) :
    pool.Before (pool.takeIn fits lo hi).2 where
  same := by
    unfold takeIn
    split
    · rw [Array.toList_modify]
      exact map_unowned_modify _ _
    · rfl
  free := sublist_free_takeIn pool fits lo hi

theorem Before.laid (h : p.Before q) (hp : Laid src p.slots.toList) : Laid src q.slots.toList := by
  rw [← laid_map_unowned, h.same, laid_map_unowned]
  exact hp

/-- The groups that are free in a later pool are some of those of the tree. -/
theorem Before.sublist_slots (h : (ofTree src root).Before q) :
    q.free.Sublist (ofTree src root).slots.toList := h.free.trans List.filter_sublist

/-! ## Requests -/

/-- A scan finds the first free group that fits, and takes it out of the free ones. -/
theorem free_scan (fits : Slot → Bool) (slots : List Slot) :
    (scan fits slots).1 = ((slots.filter fun s => !s.taken).find? fits).map (·.group) ∧
    ((scan fits slots).2.filter fun s => !s.taken) =
      (slots.filter fun s => !s.taken).eraseP fits := by
  induction slots with
  | nil => exact ⟨rfl, rfl⟩
  | cons s slots ih =>
    rw [scan]
    cases htaken : s.taken <;> cases hfits : fits s <;>
      simp [marked, htaken, hfits, ih]

/-- A node gets the first free group that documents it as its doc. -/
theorem takeDoc_eq_find (h : Laid src p.slots.toList) (n : Concrete) :
    (Lowering.takeDoc src n p).1 = (p.free.find? (documents src n)).map (·.group) ∧
    (Lowering.takeDoc src n p).2.free = p.free.eraseP (documents src n) := by
  rw [takeDoc_eq_scan h n]
  exact free_scan _ _

/-- A node gets the first free group that trails it as its line comment. -/
theorem takeLine_eq_find (h : Laid src p.slots.toList) (n : Concrete) :
    (Lowering.takeLine src n p).1 = (p.free.find? (trails src n)).map (·.group) ∧
    (Lowering.takeLine src n p).2.free = p.free.eraseP (trails src n) := by
  rw [takeLine_eq_scan h n]
  exact free_scan _ _

end CommentPool

end UniformTree
