import UniformTree.Proofs.Lowering.Attachment.File
import UniformTree.Proofs.Lowering.Spans.File
import UniformTree.Proofs.Walk.Commentary
import UniformTree.Proofs.Workspace.Confinement
/-!
# Sequences are in source order

A list, a block, a field list and a group of comments hold their elements in the order of the
source, and so do packages their files. For the sequences of the grammar this comes with settling,
for the comments of a group and for the groups of a file from the runs of the comment leaves.
-/

namespace UniformTree

/-! ## The groups of a file -/

namespace CommentPool

variable {src : Placed} {root : Concrete}

/-- The groups of a nested tree do not end after it. -/
theorem endByte_le (hroot : root.Nested) {s : Slot} (hs : s ∈ (ofTree src root).slots.toList) :
    s.endByte ≤ root.stop := by
  obtain ⟨runs, hslots, hleaves, -⟩ := exists_runs src root
  rw [hslots] at hs
  obtain ⟨r, hr, rfl⟩ := List.mem_map.1 hs
  have hlast := (Run.sublist_commentLeaves hleaves hr).subset r.last_mem
  exact (hroot.bounds (CommentLeaf.mem_preorder hlast)).2

/-- The groups of a nested tree lie one after the other. -/
theorem pairwise_slots (hroot : root.Nested)
    (hfit : src.base.toNat + root.stop ≤ Positions.limit) :
    (ofTree src root).slots.toList.Pairwise fun s t => s.group.span.Precedes t.group.span := by
  have hlaid := laid_ofTree src hroot.ordered
  apply hlaid.apart.imp_of_mem
  intro s t hs ht hst
  have hle := (hlaid.lies t ht).start_le
  have hstop := endByte_le hroot ht
  rw [(hlaid.lies s hs).span, (hlaid.lies t ht).span]
  exact Placed.pos_le_pos (Nat.le_of_lt hst) (by omega)

end CommentPool

namespace Lowering

open Node

variable {E : Prop} {src : Placed} {root : Concrete} {f : File}

/-- The groups that are left to a file lie one after the other. -/
theorem pairwise_comments (hn : root.Regular E src) (h : file src root = .ok f) :
    f.comments.Pairwise fun g g' => g.span.Precedes g'.span := by
  obtain ⟨w, rfl, rfl, hbefore, hcomments, -⟩ := exists_course h
  rw [hcomments, List.pairwise_map]
  exact (CommentPool.pairwise_slots hn.nested hn.fits).sublist hbefore.sublist_slots

end Lowering

/-! ## Sequences of a tree -/

/-- The children of a node of the kind are elements of one sequence. -/
def Kind.isSequence : Kind → Bool
  | .list | .blockStmt | .fieldList | .commentGroup => true
  | _ => false

/-- The children of a node lie one after the other. -/
def Tree.InOrder (t : Tree) : Prop := t.children.Pairwise fun u v => u.span.Precedes v.span

namespace Node

/-- What is left out changes nothing about the order of what is kept. -/
theorem inOrder_tree {n : Node} (h : n.children.Pairwise fun c d => c.span.Precedes d.span)
    (o : BuildOptions) : (n.tree o).InOrder := by
  rw [Tree.InOrder, tree_eq, itemTrees_eq, List.pairwise_map]
  simp only [span_tree]
  exact h.sublist List.filter_sublist

/-- A node with a sequence is one that settling looks at, a group of comments, or a list of
such groups. -/
theorem sequence_cases {n : Node} (h : n.kind.isSequence = true) :
    (n.isSequence = true ∧ n.group? = none) ∨ (∃ g, n = commentGroup g) ∨
      ∃ s items, n = list .comments s items := by
  cases n with
  | commentGroup g => exact .inr (.inl ⟨g, rfl⟩)
  | fieldList l => exact .inl ⟨rfl, rfl⟩
  | list role s items =>
    by_cases hrole : role = .comments
    · exact .inr (.inr ⟨s, items, by rw [hrole]⟩)
    · exact .inl ⟨by simpa [isSequence] using hrole, rfl⟩
  | stmt s => cases s <;> first | exact .inl ⟨rfl, rfl⟩ | cases h
  | expr e => cases e <;> cases h
  | spec s => cases s <;> cases h
  | decl d => cases d <;> cases h
  | comment | field | file | package => cases h

end Node

namespace Lowering

open Node

variable {E : Prop} {src : Placed} {root : Concrete} {f : File}

/-- The elements of a sequence of a file lie one after the other. -/
theorem pairwise_sequence (hn : root.Regular E src) (h : file src root = .ok f) {n : Node}
    (hmem : n ∈ (Node.file f).visited) (hseq : n.kind.isSequence = true) :
    n.children.Pairwise fun c d => c.span.Precedes d.span := by
  rcases sequence_cases hseq with ⟨hseq, hgroup⟩ | ⟨g, rfl⟩ | ⟨s, items, rfl⟩
  · exact (settled_file hn h n hmem hgroup).inOrder hseq
  · exact List.pairwise_map.2 (pairwise_list_of_visited hn h hmem).2
  · rw [children, items_of_mem_visited hmem, List.pairwise_map]
    exact pairwise_comments hn h

theorem inOrder_of_file (hn : root.Regular E src) (h : file src root = .ok f) (o : BuildOptions)
    {t : Tree} (ht : t ∈ ((Node.file f).normalize o).nodes) (hseq : t.kind.isSequence = true) :
    t.InOrder := by
  rw [normalize_eq] at ht
  obtain ⟨m, hm, rfl⟩ := exists_visited ht
  rw [kind_tree] at hseq
  exact inOrder_tree (pairwise_sequence hn h hm hseq) o

end Lowering

/-! ## Files of a package -/

theorem Tree.Before.precedes {t u : Tree} (h : t.Before u) : t.span.Precedes u.span :=
  UInt32.le_of_lt (h t (Tree.mem_nodes.2 (.inl rfl)) u (Tree.mem_nodes.2 (.inl rfl))).2.1

namespace Workspace

open Concrete SourceFile

variable {settings : Settings} {sources : List SourceFile} {files : List File}

/-- A package holds its files in the order in which they were read. -/
theorem inOrder_treeOf (hfiles : parseAll settings sources = .ok files)
    (htrees : ∀ s ∈ sources, ∀ root ∈ s.content.tree, root.Within s.size)
    (hfit : Positions.start.Suffices (sources.map (·.size))) (name : String) :
    (treeOf settings name (Package.named name files)).InOrder := by
  have hsub : ((Package.named name files).map (fileTree settings)).Sublist
      (files.map (fileTree settings)) := List.filter_sublist.map _
  exact ((pairwise_before hfiles htrees hfit).sublist hsub).imp Tree.Before.precedes

/-- A file that was read with others is what the tree of one of the sources describes, with
positions for it. -/
theorem exists_source (hfiles : parseAll settings sources = .ok files)
    (htrees : ∀ s ∈ sources, ∀ root ∈ s.content.tree, root.Within s.size)
    (hregular : ∀ s ∈ sources, ∀ root ∈ s.content.tree, root.Nested ∧ root.OneSort)
    (hfit : Positions.start.Suffices (sources.map (·.size))) {f : File} (hf : f ∈ files) :
    ∃ src root, root.Regular False src ∧ Lowering.file src root = .ok f := by
  have hall : List.Forall₂ (fun (_ : SourceFile × UInt32) f =>
      ∃ src root, root.Regular False src ∧ Lowering.file src root = .ok f)
      (sources.zip (basesOf sources)) files := by
    refine forall₂_parsed (R := fun _ _ f => ∃ src root, root.Regular False src ∧
      Lowering.file src root = .ok f) hfiles hfit ?_
    intro s hs base f _ hlimit hparse
    obtain ⟨root, hroot, hfile⟩ := Content.file_of_parse hparse
    obtain ⟨hnested, hsort⟩ := hregular s hs root hroot
    have hstop := (htrees s hs root hroot _ (mem_preorder_self _)).2
    refine ⟨⟨⟨s.content.bytes⟩, base⟩, root, ⟨hnested, hsort, ?_, False.elim⟩, hfile⟩
    exact Nat.le_trans (Nat.add_le_add_left hstop _) hlimit
  obtain ⟨-, -, hsource⟩ := exists_partner hall hf
  exact hsource

/-- Sequences are in source order. In a file that was lowered from a nested tree, bad or not, whose
clauses do not mix values and types, each list, block, field list and group of comments holds its
elements one after the other, if there are positions for the tree; it does not matter whether
comments are kept. In the packages of a directory whose files leave enough positions the files of
each package do as well, and so do the sequences in them. -/
theorem sequences_in_order :
    (∀ (src : Placed) (root : Concrete) (f : File) (o : BuildOptions), root.Nested → root.OneSort →
      src.base.toNat + root.stop ≤ Positions.limit → Lowering.file src root = .ok f →
      ∀ t ∈ ((Node.file f).normalize o).nodes, t.kind.isSequence = true → t.InOrder) ∧
    (∀ (w : Workspace) (settings : Settings) (dir suffix : String) (sources : List SourceFile)
      (packages : List (String × Tree)),
      SourceFile.list w.root dir suffix settings.fileSizeLimit = .ok sources →
      w.parseDirectory settings dir suffix = .ok packages →
      (∀ s ∈ sources, ∀ root ∈ s.content.tree, root.Within s.size) →
      Positions.start.Suffices (sources.map (·.size)) →
      ∀ p ∈ packages, p.2.InOrder ∧
        ((∀ s ∈ sources, ∀ root ∈ s.content.tree, root.Nested ∧ root.OneSort) →
          ∀ t ∈ p.2.nodes, t.kind.isSequence = true → t.InOrder)) := by
  constructor
  · intro src root f o hroot hclauses hfit hf t ht hseq
    have hn : root.Regular False src := ⟨hroot, hclauses, hfit, False.elim⟩
    exact Lowering.inOrder_of_file hn hf o ht hseq
  · intro w settings dir suffix sources packages hlist hpackages htrees hfit p hp
    rw [parseDirectory_of_list hlist] at hpackages
    obtain ⟨-, files, hfiles, -⟩ := packagesOf_eq_ok.1 hpackages
    obtain ⟨htree, -⟩ := (mem_packagesOf hfiles hpackages).1 hp
    rw [htree]
    refine ⟨inOrder_treeOf hfiles htrees hfit p.1, ?_⟩
    intro hregular t ht hseq
    rcases Tree.mem_nodes.1 ht with rfl | ⟨c, hc, ht⟩
    · exact inOrder_treeOf hfiles htrees hfit p.1
    · obtain ⟨f, hf, rfl⟩ := List.mem_map.1 hc
      obtain ⟨src, root, hn, hlower⟩ :=
        exists_source hfiles htrees hregular hfit (List.mem_filter.1 hf).1
      exact Lowering.inOrder_of_file hn hlower _ ht hseq

/-- In a file with comments beside its code the groups that are left to it are in order, and so are
the comments of one of them. Of three files in two packages the two that share one are in order. -/
theorem ordered_annotatedFile :
    (∃ f, Lowering.file CommentPool.annotatedSource CommentPool.annotatedFile = .ok f ∧
      (∀ t ∈ ((Node.file f).normalize ⟨true⟩).nodes, t.kind.isSequence = true → t.InOrder) ∧
      (((Node.file f).tree ⟨true⟩).nodes.filter fun t =>
          t.kind.isSequence && 1 < t.children.length).map
          (fun t => (t.label, t.children.map (·.span))) =
        [(some "Comments", [⟨11, 15⟩, ⟨16, 25⟩]), (none, [⟨16, 20⟩, ⟨21, 25⟩])]) ∧
    ∀ p ∈ threePackages, p.2.InOrder ∧
      ∀ t ∈ p.2.nodes, t.kind.isSequence = true → t.InOrder := by
  have hroot : CommentPool.annotatedFile.Nested := by decide +kernel
  have hclauses : CommentPool.annotatedFile.OneSort := by decide +kernel
  have htrees : ∀ s ∈ threeSources, ∀ root ∈ s.content.tree, root.Within s.size := by decide +kernel
  have hregular : ∀ s ∈ threeSources, ∀ root ∈ s.content.tree,
      root.Nested ∧ root.OneSort := by decide +kernel
  constructor
  · refine ⟨_, rfl, ?_, ?_⟩
    · exact sequences_in_order.1 _ _ _ ⟨true⟩ hroot hclauses (by decide +kernel) rfl
    · decide +kernel
  · intro p hp
    obtain ⟨horder, hall⟩ := sequences_in_order.2 threeFiles default "." ".go" threeSources
      threePackages list_threeFiles parseDirectory_threeFiles htrees suffices_threeSources p hp
    exact ⟨horder, hall hregular⟩

end Workspace

end UniformTree
