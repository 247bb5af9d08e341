import UniformTree.Proofs.Comment.Pool
import UniformTree.Proofs.Concrete.Subtrees
import UniformTree.Proofs.Relocation.Ast
/-!
# Relocated comments

Which comments make a group, and which group is handed out, is decided by bytes and rows of the
source and never by positions. So the pool of a tree at one base goes to its pool at another
(`CommentPool.relocate_ofTree`), and taking a group from a relocated pool takes the relocated group
(`CommentPool.takeDoc_relocate`, `CommentPool.takeLine_relocate`).
-/

namespace UniformTree

open Concrete

/-- A relocation takes what the nodes of a tree are given at one base to what they are given at
another, and leaves the texts as they are: those that are read from the source, and the empty ones
of a name or of the path of an import where there is none. -/
structure Relocation.Fits (ρ : Relocation) (src src' : Placed) (n : Concrete) : Prop where
  source : src'.source = src.source
  starts : ∀ c ∈ n.preorder, ρ.pos (src.pos c.start) = src'.pos c.start
  stops : ∀ c ∈ n.preorder, ρ.pos (src.pos c.stop) = src'.pos c.stop
  texts : ∀ c ∈ n.preorder, ρ.text (src.span c) (src.text c) = src.text c
  noNames : ∀ c ∈ n.preorder, ρ.text (Span.point (src.pos c.start)) "" = ""
  noPaths : ∀ c ∈ n.preorder, c.kind = "import_declaration" → ∀ s ∈ Lowering.specNodes c,
    s.child? "path" = none → ρ.text (src.span s) "" = ""

namespace Relocation.Fits

variable {ρ : Relocation} {src src' : Placed} {n c : Concrete} (hρ : ρ.Fits src src' n)

include hρ

theorem of_mem (hc : c ∈ n.preorder) : ρ.Fits src src' c where
  source := hρ.source
  starts d hd := hρ.starts d (mem_preorder_trans hd hc)
  stops d hd := hρ.stops d (mem_preorder_trans hd hc)
  texts d hd := hρ.texts d (mem_preorder_trans hd hc)
  noNames d hd := hρ.noNames d (mem_preorder_trans hd hc)
  noPaths d hd := hρ.noPaths d (mem_preorder_trans hd hc)

theorem of_child (hc : c ∈ n.children) : ρ.Fits src src' c :=
  hρ.of_mem (mem_preorder_of_child hc)

theorem start : ρ.pos (src.pos n.start) = src'.pos n.start := hρ.starts n n.mem_preorder_self

theorem stop : ρ.pos (src.pos n.stop) = src'.pos n.stop := hρ.stops n n.mem_preorder_self

theorem span : (src.span n).relocate ρ = src'.span n := by
  rw [Span.relocate, Placed.span, Placed.span, hρ.start, hρ.stop]

theorem text : ρ.text (src.span n) (src.text n) = src'.text n := by
  rw [hρ.texts n n.mem_preorder_self, Placed.text, Placed.text, hρ.source]

theorem startRow : src'.startRow n = src.startRow n := by
  rw [Placed.startRow, Placed.startRow, hρ.source]

theorem endRow : src'.endRow n = src.endRow n := by
  rw [Placed.endRow, Placed.endRow, hρ.source]

end Relocation.Fits

/-! ## Searching a relocated array -/

section Search

variable {α β : Type}

theorem partitionPointIn_map (f : α → β) (p : β → Bool) (xs : Array α) (lo hi : Nat) :
    partitionPointIn p (xs.map f) lo hi = partitionPointIn (fun x => p (f x)) xs lo hi := by
  fun_induction partitionPointIn (fun x => p (f x)) xs lo hi with
  | case1 lo hi hlt mid x hx hp ih =>
    rw [partitionPointIn]
    simp [hlt, mid, hx, hp, ih]
  | case2 lo hi hlt mid x hx hp ih =>
    rw [partitionPointIn]
    simp [hlt, mid, hx, hp, ih]
  | case3 lo hi hlt mid hx ih =>
    rw [partitionPointIn]
    simp [hlt, mid, hx, ih]
  | case4 lo hi hlt =>
    rw [partitionPointIn]
    simp [hlt]

theorem partitionPoint_map (f : α → β) (p : β → Bool) (xs : Array α) :
    partitionPoint p (xs.map f) = partitionPoint (fun x => p (f x)) xs := by
  rw [partitionPoint, partitionPoint, partitionPointIn_map, Array.size_map]

theorem modify_map {f : α → β} {g : α → α} {h : β → β} (hfg : ∀ x, h (f x) = f (g x))
    (xs : Array α) (i : Nat) : (xs.map f).modify i h = (xs.modify i g).map f := by
  refine Array.ext (by simp) ?_
  intro j hj hj'
  simp only [Array.getElem_modify, Array.getElem_map]
  split <;> simp [hfg]

end Search

/-! ## Pools -/

def Slot.relocate (ρ : Relocation) (s : Slot) : Slot := { s with group := s.group.relocate ρ }

namespace CommentPool

variable {ρ : Relocation}

def relocate (ρ : Relocation) (pool : CommentPool) : CommentPool :=
  ⟨pool.slots.map (Slot.relocate ρ)⟩

theorem firstFree?_relocate {fits : Slot → Bool} (hfits : ∀ s, fits (s.relocate ρ) = fits s)
    (slots : Array Slot) (lo hi : Nat) :
    firstFree? (slots.map (Slot.relocate ρ)) fits lo hi = firstFree? slots fits lo hi := by
  unfold firstFree?
  congr 1
  funext i
  rw [Array.getElem?_map]
  cases slots[i]? with
  | none => rfl
  | some s => exact congrArg (!s.taken && ·) (hfits s)

/-- Of a relocated pool the group is taken that went to where it was. -/
theorem takeIn_relocate {fits : Slot → Bool} (hfits : ∀ s, fits (s.relocate ρ) = fits s)
    (pool : CommentPool) (lo hi : Nat) :
    (pool.relocate ρ).takeIn fits lo hi =
      ((pool.takeIn fits lo hi).1.map (CommentGroup.relocate ρ),
        (pool.takeIn fits lo hi).2.relocate ρ) := by
  unfold takeIn relocate
  rw [firstFree?_relocate hfits]
  cases firstFree? pool.slots fits lo hi with
  | none => rfl
  | some i =>
    have hmark (s : Slot) : marked (s.relocate ρ) = (marked s).relocate ρ := rfl
    have hslots := modify_map hmark pool.slots i
    have hgroup : ((pool.slots.map (Slot.relocate ρ))[i]?.map (·.group)) =
        (pool.slots[i]?.map (·.group)).map (CommentGroup.relocate ρ) := by
      rw [Array.getElem?_map, Option.map_map, Option.map_map]
      rfl
    exact Prod.ext hgroup (congrArg CommentPool.mk hslots)

theorem takeDoc_relocate (pool : CommentPool) (row start : Nat) :
    (pool.relocate ρ).takeDoc row start =
      ((pool.takeDoc row start).1.map (CommentGroup.relocate ρ),
        (pool.takeDoc row start).2.relocate ρ) := by
  have hfits (s : Slot) : (s.relocate ρ).endsAbove row = s.endsAbove row := rfl
  have hhi : partitionPoint (fun s => s.endByte ≤ start) (pool.relocate ρ).slots =
      partitionPoint (fun s => s.endByte ≤ start) pool.slots := partitionPoint_map _ _ _
  have hnear (hi : Nat) : ((((pool.relocate ρ).slots.toList.take hi).reverse.takeWhile
      fun s => !(s.endRow + 1 < row)).length) =
        ((pool.slots.toList.take hi).reverse.takeWhile fun s => !(s.endRow + 1 < row)).length := by
    rw [relocate, Array.toList_map, ← List.map_take, ← List.map_reverse, List.takeWhile_map,
      List.length_map]
    rfl
  unfold takeDoc
  simp only [hhi, hnear]
  exact takeIn_relocate hfits pool _ _

theorem takeLine_relocate (pool : CommentPool) (row stop : Nat) :
    (pool.relocate ρ).takeLine row stop =
      ((pool.takeLine row stop).1.map (CommentGroup.relocate ρ),
        (pool.takeLine row stop).2.relocate ρ) := by
  have hfits (s : Slot) : (s.relocate ρ).trailing = s.trailing := rfl
  have hlo : partitionPoint (fun s => s.startByte < stop) (pool.relocate ρ).slots =
      partitionPoint (fun s => s.startByte < stop) pool.slots := partitionPoint_map _ _ _
  have honRow (lo : Nat) : (((pool.relocate ρ).slots.toList.drop lo).takeWhile
      fun s => s.startRow == row).length =
        ((pool.slots.toList.drop lo).takeWhile fun s => s.startRow == row).length := by
    rw [relocate, Array.toList_map, ← List.map_drop, List.takeWhile_map, List.length_map]
    rfl
  unfold takeLine
  simp only [hlo, honRow]
  exact takeIn_relocate hfits pool _ _

theorem remaining_relocate (pool : CommentPool) :
    (pool.relocate ρ).remaining = pool.remaining.map (CommentGroup.relocate ρ) := by
  unfold remaining relocate
  rw [Array.toList_map, List.filter_map, List.map_map, List.map_map]
  rfl

end CommentPool

/-! ## Gathering -/

namespace Gathering

variable {ρ : Relocation} {src src' : Placed} {n : Concrete}

def relocate (ρ : Relocation) (g : Gathering) : Gathering :=
  { g with slots := g.slots.map (Slot.relocate ρ) }

theorem ofComment_relocate (hρ : ρ.Fits src src' n) (trailing : Bool) :
    Slot.ofComment src' n trailing = (Slot.ofComment src n trailing).relocate ρ := by
  simp [Slot.ofComment, Slot.relocate, CommentGroup.relocate, Comment.relocate, hρ.span, hρ.text,
    hρ.startRow, hρ.endRow]

theorem push_relocate (hρ : ρ.Fits src src' n) (s : Slot) :
    (s.relocate ρ).push src' n = (s.push src n).relocate ρ := by
  have hstop : ρ.pos (src.span n).stop = (src'.span n).stop := hρ.stop
  simp only [Slot.push, Slot.relocate, CommentGroup.relocate, List.map_append, List.map_singleton,
    Comment.relocate, hρ.span, hρ.text, hρ.endRow]
  simp only [Span.relocate, hstop]

/-- One more leaf does the same to relocated groups. -/
theorem add_relocate (hρ : ρ.Fits src src' n) (g : Gathering) :
    (g.relocate ρ).add src' n = (g.add src n).relocate ρ := by
  have hreaches (s : Slot) (row : Nat) : (s.relocate ρ).reaches row = s.reaches row := rfl
  rcases g with ⟨slots, codeRow, isOpen⟩
  unfold add
  rw [hρ.startRow, hρ.endRow, ofComment_relocate hρ]
  by_cases hc : n.isComment = true
  · rw [if_pos hc, if_pos hc]
    cases slots with
    | nil => rfl
    | cons last before =>
      simp only [relocate, List.map_cons, hreaches, push_relocate hρ]
      by_cases hjoin : (isOpen && last.reaches (src.startRow n)) = true
      · rw [if_pos hjoin, if_pos hjoin]
        rfl
      · rw [if_neg hjoin, if_neg hjoin]
        rfl
  · rw [if_neg hc, if_neg hc]
    by_cases hlayout : isLayout n = true
    · rw [if_pos hlayout, if_pos hlayout]
    · rw [if_neg hlayout, if_neg hlayout]
      rfl

theorem foldl_add_relocate {ns : List Concrete} (hns : ∀ n ∈ ns, ρ.Fits src src' n)
    (g : Gathering) : ns.foldl (add src') (g.relocate ρ) = (ns.foldl (add src) g).relocate ρ := by
  induction ns generalizing g with
  | nil => rfl
  | cons n ns ih =>
    obtain ⟨hn, hns⟩ := List.forall_mem_cons.1 hns
    rw [List.foldl_cons, List.foldl_cons, add_relocate hn, ih hns]

end Gathering

/-- The pool of a tree goes to its pool at the other base. -/
theorem CommentPool.relocate_ofTree {ρ : Relocation} {src src' : Placed} {root : Concrete}
    (hρ : ρ.Fits src src' root) : (ofTree src root).relocate ρ = ofTree src' root := by
  have hleaves : ∀ n ∈ root.leaves, ρ.Fits src src' n := fun n hn =>
    hρ.of_mem (mem_preorder_of_leaf hn)
  have hempty : Gathering.empty.relocate ρ = Gathering.empty := rfl
  have hfold := Gathering.foldl_add_relocate hleaves Gathering.empty
  rw [hempty] at hfold
  rw [ofTree, ofTree, hfold]
  simp [relocate, Gathering.relocate]

end UniformTree
