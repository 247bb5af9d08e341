import Mathlib.Data.List.ReduceOption
import UniformTree.Lowering.Basic
import UniformTree.Proofs.Comment.Layout
import UniformTree.Proofs.Comment.Search
import UniformTree.Proofs.Positions
/-!
# Requests for comment groups

However groups are asked for, one request after the other, each answer is what a scan of the whole
pool would find (`CommentPool.lookups_eq_scans`), and the groups that were handed out and those that
remain are the groups of the tree (`CommentPool.groups_conserved`).
-/

namespace UniformTree

open Concrete

/-- A request for the doc of a node or for its line comment. -/
inductive Request where
  | doc (n : Concrete)
  | line (n : Concrete)

namespace Request

/-- What a request gets, and the pool after it. -/
def answer (src : Placed) : Request → Lower (Option CommentGroup)
  | doc n => Lowering.takeDoc src n
  | line n => Lowering.takeLine src n

/-- What requests get, one after the other. -/
def answers (src : Placed) (rs : List Request) : Lower (List (Option CommentGroup)) :=
  rs.mapM (answer src)

/-- A group that documents a node: it stands alone, before the node, and ends on the row above. -/
def documents (src : Placed) (n : Concrete) (s : Slot) : Bool :=
  !s.trailing && s.endByte ≤ n.start && s.endRow + 1 == src.startRow n

/-- A group that trails a node: it follows code, comes after the node and starts on its last row. -/
def trails (src : Placed) (n : Concrete) (s : Slot) : Bool :=
  s.trailing && n.stop ≤ s.startByte && s.startRow == src.endRow n

end Request

namespace CommentPool

open Request

variable {src : Placed} {root : Concrete} {pool : CommentPool}

/-! ## Single requests -/

theorem divides_endByte (h : Laid src pool.slots.toList) (byte : Nat) :
    Divides (fun s => s.endByte ≤ byte) pool.slots := by
  apply h.apart.imp_of_mem
  intro s t hs ht hst hle
  have hstart := (h.lies t ht).start_le
  simp only [decide_eq_true_eq] at hle ⊢
  omega

theorem divides_startByte (h : Laid src pool.slots.toList) (byte : Nat) :
    Divides (fun s => s.startByte < byte) pool.slots := by
  apply h.apart.imp_of_mem
  intro s t hs ht hst hlt
  have hstart := (h.lies s hs).start_le
  simp only [decide_eq_true_eq] at hlt ⊢
  omega

theorem documents_iff {n : Concrete} {s : Slot} : documents src n s = true ↔
    s.trailing = false ∧ s.endByte ≤ n.start ∧ s.endRow + 1 = src.startRow n := by
  simp [documents, and_assoc]

theorem trails_iff {n : Concrete} {s : Slot} : trails src n s = true ↔
    s.trailing = true ∧ n.stop ≤ s.startByte ∧ s.startRow = src.endRow n := by
  simp [trails, and_assoc]

/-- Looking a doc up is scanning for it. -/
theorem takeDoc_eq_scan (h : Laid src pool.slots.toList) (n : Concrete) :
    Lowering.takeDoc src n pool = pool.scanAll (documents src n) := by
  have hends {i : Nat} {s : Slot} (hs : pool.slots[i]? = some s) :
      i < partitionPoint (fun s => s.endByte ≤ n.start) pool.slots ↔ s.endByte ≤ n.start := by
    rw [lt_partitionPoint_iff (divides_endByte h n.start) hs, decide_eq_true_eq]
  have hsize := partitionPoint_le (fun s : Slot => s.endByte ≤ n.start) pool.slots
  show pool.takeDoc (src.startRow n) n.start = _
  unfold takeDoc
  generalize partitionPoint (fun s : Slot => s.endByte ≤ n.start) pool.slots = hi at hends hsize
  have hlength : (pool.slots.toList.take hi).length = hi := by
    rw [List.length_take, Array.length_toList]
    omega
  apply takeIn_eq_scan
  · intro i s hs hfits
    obtain ⟨-, hbefore, hrow⟩ := documents_iff.1 hfits
    rw [← Array.getElem?_toList] at hs
    have hback : ∀ {j t}, (pool.slots.toList.take hi)[j]? = some t → i ≤ j →
        (!(t.endRow + 1 < src.startRow n)) = true := by
      intro j t ht hij
      rw [List.getElem?_take] at ht
      split at ht
      · obtain ⟨-, -, -, hle⟩ := h.le_of_le hs ht hij
        rw [Bool.not_eq_true', decide_eq_false_iff_not]
        omega
      · cases ht
    have hlo := length_sub_takeWhile_le hback
    rw [hlength] at hlo
    rw [Array.getElem?_toList] at hs
    exact ⟨hlo, (hends hs).2 hbefore⟩
  · intro i s hs hlo hhi
    rw [Bool.eq_iff_iff, documents_iff, Slot.endsAbove]
    simp [(hends hs).1 hhi]

/-- Looking a line comment up is scanning for it. -/
theorem takeLine_eq_scan (h : Laid src pool.slots.toList) (n : Concrete) :
    Lowering.takeLine src n pool = pool.scanAll (trails src n) := by
  have hstarts {i : Nat} {s : Slot} (hs : pool.slots[i]? = some s) :
      partitionPoint (fun s => s.startByte < n.stop) pool.slots ≤ i ↔ n.stop ≤ s.startByte := by
    rw [← Nat.not_lt, lt_partitionPoint_iff (divides_startByte h n.stop) hs, decide_eq_true_eq,
      Nat.not_lt]
  show pool.takeLine (src.endRow n) n.stop = _
  unfold takeLine
  generalize partitionPoint (fun s : Slot => s.startByte < n.stop) pool.slots = lo at hstarts
  apply takeIn_eq_scan
  · intro i s hs hfits
    obtain ⟨-, hafter, hrow⟩ := trails_iff.1 hfits
    have hlo := (hstarts hs).2 hafter
    refine ⟨hlo, ?_⟩
    rw [← Array.getElem?_toList] at hs
    have hfront : ∀ {j t}, (pool.slots.toList.drop lo)[j]? = some t → j ≤ i - lo →
        (t.startRow == src.endRow n) = true := by
      intro j t ht hj
      rw [List.getElem?_drop] at ht
      have hbyte : n.stop ≤ t.startByte :=
        (hstarts (by rwa [← Array.getElem?_toList])).1 (Nat.le_add_right lo j)
      have hrow' : src.endRow n ≤ t.startRow := by
        rw [(h.lies t (List.mem_of_getElem? ht)).startRow]
        exact src.source.row_mono hbyte
      obtain ⟨-, -, hle, -⟩ := h.le_of_le ht hs (by omega)
      rw [beq_iff_eq]
      omega
    have hsize : i < pool.slots.toList.length := (List.getElem?_eq_some_iff.1 hs).1
    have hwalk := lt_length_takeWhile (by rw [List.length_drop]; omega) hfront
    omega
  · intro i s hs hlo hhi
    have hwithin : (pool.slots.toList.drop lo)[i - lo]? = some s := by
      rw [List.getElem?_drop, Nat.add_sub_cancel' hlo, Array.getElem?_toList, hs]
    have hrow :=
      of_lt_length_takeWhile (p := fun s => s.startRow == src.endRow n) hwithin (by omega)
    rw [beq_iff_eq] at hrow
    rw [Bool.eq_iff_iff, trails_iff]
    simp [hrow, (hstarts hs).1 hlo]

/-! ## Any requests -/

theorem answers_cons (r : Request) (rs : List Request) (pool : CommentPool) :
    answers src (r :: rs) pool =
      ((r.answer src pool).1 :: (answers src rs (r.answer src pool).2).1,
        (answers src rs (r.answer src pool).2).2) := by
  rw [answers, List.mapM_cons]
  rfl

/-- What a request does not take stays where it is. -/
theorem laid_answer (h : Laid src pool.slots.toList) (r : Request) :
    Laid src (r.answer src pool).2.slots.toList := by
  cases r with
  | doc n => exact laid_takeIn h _ _ _
  | line n => exact laid_takeIn h _ _ _

theorem laid_answers (h : Laid src pool.slots.toList) (rs : List Request) :
    Laid src (answers src rs pool).2.slots.toList := by
  induction rs generalizing pool with
  | nil => exact h
  | cons r rs ih =>
    rw [answers_cons]
    exact ih (laid_answer h r)

/-- Looking groups up is scanning for them. After any requests to the pool of an ordered tree, the
doc that any node gets is the first free group of the whole pool that documents it, and its line
comment is the first free group of the whole pool that trails it. That group is taken and no other;
where there is none the pool stays as it is. -/
theorem lookups_eq_scans (src : Placed) (hroot : root.Ordered) (rs : List Request)
    (n : Concrete) :
    let pool := (answers src rs (ofTree src root)).2
    Lowering.takeDoc src n pool = pool.scanAll (documents src n) ∧
    Lowering.takeLine src n pool = pool.scanAll (trails src n) := by
  have hlaid := laid_answers (laid_ofTree src hroot) rs
  exact ⟨takeDoc_eq_scan hlaid n, takeLine_eq_scan hlaid n⟩

/-- After its line comment a variable gets its doc. -/
theorem lookups_annotatedFile :
    (Lowering.takeDoc annotatedSource annotatedVar
      (answers annotatedSource [.line annotatedVar] (ofTree annotatedSource annotatedFile)).2).1 =
        some ⟨⟨27, 31⟩, [⟨⟨27, 31⟩, "// d"⟩]⟩ := by
  have hroot : annotatedFile.Ordered := by decide +kernel
  rw [(lookups_eq_scans annotatedSource hroot [.line annotatedVar] annotatedVar).1]
  decide +kernel

/-! ## Conservation -/

/-- The groups of a pool, with or without an owner. -/
def groups (pool : CommentPool) : List CommentGroup := pool.slots.toList.map (·.group)

theorem remaining_ofTree_eq (src : Placed) (root : Concrete) :
    (ofTree src root).remaining = (ofTree src root).groups := by
  obtain ⟨runs, hslots, -⟩ := exists_runs src root
  rw [remaining, groups, hslots, List.filter_eq_self.2]
  rw [List.forall_mem_map]
  intro r hr
  rfl

/-- The groups that nobody owns. -/
def free (pool : CommentPool) : List Slot := pool.slots.toList.filter fun s => !s.taken

theorem sublist_free_modify (slots : List Slot) (i : Nat) :
    ((slots.modify i marked).filter fun s => !s.taken).Sublist
      (slots.filter fun s => !s.taken) := by
  induction slots generalizing i with
  | nil => cases i <;> exact .slnil
  | cons s slots ih =>
    cases i with
    | zero =>
      show (slots.filter fun s => !s.taken).Sublist _
      rw [List.filter_cons]
      split
      · exact List.sublist_cons_self _ _
      · exact List.Sublist.refl _
    | succ i =>
      rw [List.modify_succ_cons, List.filter_cons, List.filter_cons]
      split
      · exact (ih i).cons_cons _
      · exact ih i

theorem sublist_free_takeIn (pool : CommentPool) (fits : Slot → Bool) (lo hi : Nat) :
    (pool.takeIn fits lo hi).2.free.Sublist pool.free := by
  unfold takeIn
  split
  · simp only [free, Array.toList_modify]
    exact sublist_free_modify _ _
  · exact List.Sublist.refl _

theorem sublist_remaining_takeIn (pool : CommentPool) (fits : Slot → Bool) (lo hi : Nat) :
    (pool.takeIn fits lo hi).2.remaining.Sublist pool.remaining :=
  (sublist_free_takeIn pool fits lo hi).map _

/-- A request takes what it gets out of what remains. -/
theorem remaining_answer (src : Placed) (pool : CommentPool) (r : Request) :
    ((r.answer src pool).1.toList ++ (r.answer src pool).2.remaining).Perm pool.remaining ∧
    (r.answer src pool).2.remaining.Sublist pool.remaining := by
  cases r with
  | doc n => exact ⟨(perm_remaining_takeIn pool _ _ _).symm, sublist_remaining_takeIn pool _ _ _⟩
  | line n => exact ⟨(perm_remaining_takeIn pool _ _ _).symm, sublist_remaining_takeIn pool _ _ _⟩

theorem remaining_answers (src : Placed) (pool : CommentPool) (rs : List Request) :
    ((answers src rs pool).1.reduceOption ++ (answers src rs pool).2.remaining).Perm
      pool.remaining ∧
    (answers src rs pool).2.remaining.Sublist pool.remaining := by
  induction rs generalizing pool with
  | nil => exact ⟨List.Perm.refl _, List.Sublist.refl _⟩
  | cons r rs ih =>
    rw [answers_cons]
    obtain ⟨hperm, hsub⟩ := ih (r.answer src pool).2
    obtain ⟨hperm', hsub'⟩ := remaining_answer src pool r
    have hcons (a : Option CommentGroup) (as : List (Option CommentGroup)) :
        (a :: as).reduceOption = a.toList ++ as.reduceOption := by
      cases a <;> rfl
    refine ⟨?_, hsub.trans hsub'⟩
    rw [hcons, List.append_assoc]
    exact (hperm.append_left _).trans hperm'

/-- Where positions suffice a later group also starts at a later position. -/
theorem pairwise_groups (h : Laid src pool.slots.toList)
    (hfit : ∀ s ∈ pool.slots.toList, src.base.toNat + s.startByte ≤ Positions.limit) :
    pool.groups.Pairwise fun g g' => g.span.start < g'.span.start := by
  rw [groups, List.pairwise_map]
  apply h.apart.imp_of_mem
  intro s t hs ht hst
  have hle := (h.lies s hs).start_le
  rw [(h.lies s hs).span, (h.lies t ht).span, UInt32.lt_iff_toNat_lt]
  show (src.pos s.startByte).toNat < (src.pos t.startByte).toNat
  rw [Placed.toNat_pos (hfit s hs), Placed.toNat_pos (hfit t ht)]
  omega

/-- Groups that start at different positions are in one order only. -/
theorem eq_of_sorted {gs gs' : List CommentGroup} (hperm : gs.Perm gs')
    (h : gs.Pairwise fun g g' => g.span.start ≤ g'.span.start)
    (h' : gs'.Pairwise fun g g' => g.span.start < g'.span.start) : gs = gs' := by
  have hsymm : Std.Symm fun g g' : CommentGroup => g.span.start ≠ g'.span.start :=
    ⟨fun _ _ hne => hne.symm⟩
  have hne : gs'.Pairwise fun g g' => g.span.start ≠ g'.span.start := h'.imp UInt32.ne_of_lt
  refine hperm.eq_of_pairwise ?_ h (h'.imp UInt32.le_of_lt)
  intro g g' hg hg' hle hle'
  by_contra hdiff
  exact hne.forall (hperm.subset hg) hg' hdiff (UInt32.le_antisymm hle hle')

/-- Requests conserve the groups of an ordered tree. Whatever is asked for, and in whatever order,
what was handed out and what remains are together the groups of the tree, each once and as it was,
and what remains is in their order. That is the order of the source: each group starts after the end
of the one before, and the comments of the groups are those of the tree in the order of its leaves.
If positions suffice then it is also the only order in which the groups are sorted by their
start. -/
theorem groups_conserved (src : Placed) (hroot : root.Ordered) (rs : List Request) :
    let pool := ofTree src root
    let handed := (answers src rs pool).1.reduceOption
    let remaining := (answers src rs pool).2.remaining
    (handed ++ remaining).Perm pool.groups ∧ remaining.Sublist pool.groups ∧
    Laid src pool.slots.toList ∧ pool.groups.flatMap (·.list) = root.comments src ∧
    ((∀ s ∈ pool.slots.toList, src.base.toNat + s.startByte ≤ Positions.limit) →
      ∀ gs, gs.Perm (handed ++ remaining) →
        gs.Pairwise (fun g g' => g.span.start ≤ g'.span.start) → gs = pool.groups) := by
  intro pool handed remaining
  have hlaid := laid_ofTree src hroot
  have hall : pool.remaining = pool.groups := remaining_ofTree_eq src root
  obtain ⟨hperm, hsub⟩ := remaining_answers src pool rs
  rw [hall] at hperm hsub
  refine ⟨hperm, hsub, hlaid, ?_, ?_⟩
  · rw [← hall]
    exact remaining_ofTree src root
  · intro hfit gs hgs hsorted
    exact eq_of_sorted (hgs.trans hperm) hsorted (pairwise_groups hlaid hfit)

/-- What is asked for twice is handed out once. -/
theorem conserved_annotatedFile :
    let pool := ofTree annotatedSource annotatedFile
    let rs := [.doc annotatedVar, .line annotatedFile, .doc annotatedVar, .line annotatedVar]
    let d : CommentGroup := ⟨⟨27, 31⟩, [⟨⟨27, 31⟩, "// d"⟩]⟩
    let e : CommentGroup := ⟨⟨42, 46⟩, [⟨⟨42, 46⟩, "// e"⟩]⟩
    (answers annotatedSource rs pool).1 = [some d, none, none, some e] ∧
    ([d, e] ++ (answers annotatedSource rs pool).2.remaining).Perm pool.groups ∧
    (answers annotatedSource rs pool).2.remaining ++ [d, e] = pool.groups := by
  intro pool rs d e
  have hanswers : (answers annotatedSource rs (ofTree annotatedSource annotatedFile)).1 =
    [some d, none, none, some e] := by decide +kernel
  have hroot : annotatedFile.Ordered := by decide +kernel
  obtain ⟨hperm, -, -, -, hsorted⟩ := groups_conserved annotatedSource hroot rs
  rw [hanswers] at hperm hsorted
  exact ⟨hanswers, hperm, hsorted (by decide +kernel) _ List.perm_append_comm (by decide +kernel)⟩

end CommentPool

end UniformTree
