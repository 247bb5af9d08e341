import UniformTree.Proofs.Text.Order
import UniformTree.Proofs.Workspace.Sources
/-!
# The listing of a directory

The source files of a directory are determined by its entries: they are the files whose names end in
the suffix, by ascending bytes of their names. Listing them gives these files or, if one of them is
too large, the error of the first such file.
-/

namespace UniformTree

namespace SourceFile

variable {dir suffix : String} {entries : List (String × Item)} {f : SourceFile}
  {files : List SourceFile} {max : UInt64}

/-- The source files among the entries of a directory, by ascending bytes of their names. -/
structure IsListing (dir suffix : String) (entries : List (String × Item))
    (files : List SourceFile) : Prop where
  mem_iff : ∀ f, f ∈ files ↔ ∃ name content, (name, Item.file content) ∈ entries ∧
    suffix.toList <:+ name.toList ∧ f = ⟨Item.join dir name, name, content⟩
  ascending : files.Pairwise fun f g => Text.bytes f.name < Text.bytes g.name

/-- There is only one listing of entries. -/
theorem IsListing.unique {others : List SourceFile} (h : IsListing dir suffix entries files)
    (h' : IsListing dir suffix entries others) : files = others := by
  have hnodup {fs : List SourceFile} (hfs : IsListing dir suffix entries fs) : fs.Nodup := by
    refine hfs.ascending.imp ?_
    rintro f _ hlt rfl
    exact List.lt_irrefl _ hlt
  have hperm : files.Perm others := by
    rw [List.perm_ext_iff_of_nodup (hnodup h) (hnodup h')]
    exact fun f => (h.mem_iff f).trans (h'.mem_iff f).symm
  refine hperm.eq_of_pairwise ?_ h.ascending h'.ascending
  intro f g _ _ hfg hgf
  exact absurd hgf (List.lt_asymm hfg)

/-! ## The files in ascending order -/

theorem fromItem?_eq_some {e : String × Item} : fromItem? dir suffix e = some f ↔
    ∃ content, e.2 = .file content ∧ suffix.toList <:+ e.1.toList ∧
      f = ⟨Item.join dir e.1, e.1, content⟩ := by
  obtain ⟨name, item⟩ := e
  cases item with
  | directory es => simp [fromItem?]
  | file content =>
    rw [fromItem?, ← List.isSuffixOf_iff_suffix]
    constructor
    · intro h
      obtain ⟨hsuffix, hf⟩ := Option.ite_none_right_eq_some.1 h
      exact ⟨content, rfl, hsuffix, (Option.some.inj hf).symm⟩
    · rintro ⟨_, ⟨⟩, hsuffix, rfl⟩
      exact if_pos hsuffix

/-- Entries of different names come to stand in strictly ascending order. -/
theorem pairwise_sortEntries (hnames : (entries.map (·.1)).Nodup) :
    (sortEntries entries).Pairwise fun a b => a.1 < b.1 := by
  have hle : (sortEntries entries).Pairwise fun a b => decide (a.1 ≤ b.1) = true := by
    refine List.pairwise_mergeSort ?_ ?_ entries
    · intro a b c hab hbc
      exact decide_eq_true (String.le_trans (of_decide_eq_true hab) (of_decide_eq_true hbc))
    · intro a b
      simpa using String.le_total a.1 b.1
  have hne : (sortEntries entries).Pairwise fun a b => a.1 ≠ b.1 := by
    rw [← List.pairwise_map (f := Prod.fst) (R := (· ≠ ·))]
    exact ((List.mergeSort_perm entries _).map Prod.fst).nodup_iff.2 hnames
  refine hle.imp₂ ?_ hne
  intro a b hab hab'
  exact Std.lt_of_le_of_ne (of_decide_eq_true hab) hab'

/-- The source files among some entries. -/
def amongEntries (dir suffix : String) (entries : List (String × Item)) : List SourceFile :=
  (sortEntries entries).filterMap (fromItem? dir suffix)

theorem isListing_amongEntries (hnames : (entries.map (·.1)).Nodup) :
    IsListing dir suffix entries (amongEntries dir suffix entries) := by
  constructor
  · intro f
    rw [amongEntries, List.mem_filterMap]
    constructor
    · rintro ⟨⟨name, item⟩, he, hf⟩
      obtain ⟨content, rfl, hsuffix, rfl⟩ := fromItem?_eq_some.1 hf
      exact ⟨name, content, List.mem_mergeSort.1 he, hsuffix, rfl⟩
    · rintro ⟨name, content, he, hsuffix, rfl⟩
      refine ⟨(name, .file content), List.mem_mergeSort.2 he, ?_⟩
      exact fromItem?_eq_some.2 ⟨content, rfl, hsuffix, rfl⟩
  · refine (pairwise_sortEntries hnames).filterMap _ ?_
    intro a b hab f hf g hg
    obtain ⟨_, _, _, rfl⟩ := fromItem?_eq_some.1 hf
    obtain ⟨_, _, _, rfl⟩ := fromItem?_eq_some.1 hg
    exact Text.bytes_lt hab

/-! ## Sizes -/

/-- A file that is larger than is permitted. -/
def isTooLarge (max : UInt64) (f : SourceFile) : Bool := max.toNat < f.size

/-- The error of a file that is too large. -/
def tooLarge (max : UInt64) (f : SourceFile) : ScanError :=
  .tooLarge f.path (UInt64.ofNat f.size) max

theorem checkSize_eq (max : UInt64) (f : SourceFile) :
    checkSize max f = if f.isTooLarge max then .error (f.tooLarge max) else .ok f := by
  simp [checkSize, isTooLarge, tooLarge]

/-- The first file that is too large is refused. -/
theorem mapM_checkSize (max : UInt64) (files : List SourceFile) :
    files.mapM (checkSize max) = match files.find? (isTooLarge max) with
      | some f => .error (f.tooLarge max)
      | none => .ok files := by
  induction files with
  | nil => rfl
  | cons f fs ih =>
    rw [List.mapM_cons, ih, checkSize_eq]
    cases hf : f.isTooLarge max with
    | true => rw [List.find?_cons_of_pos hf]; rfl
    | false =>
      rw [List.find?_cons_of_neg (by simp [hf])]
      cases fs.find? (isTooLarge max) <;> rfl

theorem list_eq (suffix : String) (max : UInt64) {root item : Item}
    (hfind : root.find dir = .ok item) :
    list root dir suffix max =
      match (amongEntries dir suffix item.entries).find? (isTooLarge max) with
      | some f => .error (f.tooLarge max)
      | none => .ok (amongEntries dir suffix item.entries) := by
  rw [list, hfind]
  exact mapM_checkSize max _

end SourceFile

end UniformTree
