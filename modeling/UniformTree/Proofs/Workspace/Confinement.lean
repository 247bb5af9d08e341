import UniformTree.Proofs.Workspace.Packages
/-!
# Positions of files

Every position in a file is one of its source. Files that are read together are given ranges of
positions that lie behind one another, so the positions of a file come before those of each later
one, and none is the position zero.
-/

namespace UniformTree

/-- A span lies wholly before another, with both of its ends. -/
def Span.Before (s t : Span) : Prop :=
  (s.start < t.start ∧ s.start < t.stop) ∧ s.stop < t.start ∧ s.stop < t.stop

theorem Span.before_of_liesIn {s t : Span} {lo hi lo' hi' : Nat} (hs : s.LiesIn lo hi)
    (ht : t.LiesIn lo' hi') (h : hi < lo') : s.Before t := by
  obtain ⟨⟨-, hs₁⟩, -, hs₂⟩ := hs
  obtain ⟨⟨ht₁, -⟩, ht₂, -⟩ := ht
  have hlt {p q : UInt32} (hp : p.toNat ≤ hi) (hq : lo' ≤ q.toNat) : p < q :=
    UInt32.lt_iff_toNat_lt.2 (by omega)
  exact ⟨⟨hlt hs₁ ht₁, hlt hs₁ ht₂⟩, hlt hs₂ ht₁, hlt hs₂ ht₂⟩

theorem Span.ne_zero_of_liesIn {s : Span} {lo hi : Nat} (hs : s.LiesIn lo hi) (h : 0 < lo) :
    s.start ≠ 0 ∧ s.stop ≠ 0 := by
  obtain ⟨⟨hs₁, -⟩, hs₂, -⟩ := hs
  have hne {p : UInt32} (hp : lo ≤ p.toNat) : p ≠ 0 := by
    rintro rfl
    exact absurd hp (Nat.not_le_of_lt h)
  exact ⟨hne hs₁, hne hs₂⟩

/-- Every position below one tree comes before every position below another. -/
def Tree.Before (t u : Tree) : Prop := ∀ a ∈ t.nodes, ∀ b ∈ u.nodes, a.span.Before b.span

section Partners

variable {α β : Type} {R : α → β → Prop} {xs : List α} {ys : List β}

theorem exists_partner (hR : List.Forall₂ R xs ys) {y : β} (hy : y ∈ ys) : ∃ x ∈ xs, R x y := by
  obtain ⟨hlength, hzip⟩ := List.forall₂_iff_zip.1 hR
  rw [← List.map_snd_zip (Nat.le_of_eq hlength.symm), List.mem_map] at hy
  obtain ⟨⟨x, y⟩, hxy, rfl⟩ := hy
  exact ⟨x, (List.of_mem_zip hxy).1, hzip hxy⟩

/-- What holds between any two of a row and passes over to their partners holds between any two of
these. -/
theorem pairwise_of_forall₂ {S : α → α → Prop} {T : β → β → Prop} (hR : List.Forall₂ R xs ys)
    (hS : xs.Pairwise S) (h : ∀ {x y x' y'}, R x y → R x' y' → S x x' → T y y') :
    ys.Pairwise T := by
  obtain ⟨hlength, hzip⟩ := List.forall₂_iff_zip.1 hR
  rw [← List.map_fst_zip (Nat.le_of_eq hlength), List.pairwise_map] at hS
  rw [← List.map_snd_zip (Nat.le_of_eq hlength.symm), List.pairwise_map]
  exact hS.imp_of_mem fun ha hb hab => h (hzip ha) (hzip hb) hab

end Partners

namespace Workspace

open SourceFile

variable {settings : Settings} {sources : List SourceFile} {files : List File}

/-- The positions in the tree of a file are those from its base on, one for each byte and one
more. -/
def IsPlaced (settings : Settings) (s : SourceFile) (base : UInt32) (f : File) : Prop :=
  ∀ t ∈ (fileTree settings f).nodes, t.span.LiesIn base.toNat (base.toNat + s.size)

theorem forall₂_isPlaced (hfiles : parseAll settings sources = .ok files)
    (htrees : ∀ s ∈ sources, ∀ root ∈ s.content.tree, root.Within s.size)
    (hfit : Positions.start.Suffices (sources.map (·.size))) :
    List.Forall₂ (fun s f => IsPlaced settings s.1 s.2 f) (sources.zip (basesOf sources))
      files := by
  refine forall₂_parsed hfiles hfit ?_
  intro s hs base f _ hlimit hparse t ht
  rw [fileTree, Node.normalize_eq] at ht
  obtain ⟨n, hn, rfl⟩ := Node.exists_visited ht
  rw [Node.span_tree]
  exact Content.span_liesIn (htrees s hs) hlimit hparse hn

theorem pairwise_before (hfiles : parseAll settings sources = .ok files)
    (htrees : ∀ s ∈ sources, ∀ root ∈ s.content.tree, root.Within s.size)
    (hfit : Positions.start.Suffices (sources.map (·.size))) :
    (files.map (fileTree settings)).Pairwise Tree.Before := by
  rw [List.pairwise_map]
  refine pairwise_of_forall₂ (forall₂_isPlaced hfiles htrees hfit)
    (Positions.pairwise_zip_bases hfit) ?_
  intro s f s' f' hs hs' hlt a ha b hb
  exact Span.before_of_liesIn (hs a ha) (hs' b hb) hlt

/-- No file has the position zero. -/
theorem fileTree_ne_zero (hfiles : parseAll settings sources = .ok files)
    (htrees : ∀ s ∈ sources, ∀ root ∈ s.content.tree, root.Within s.size)
    (hfit : Positions.start.Suffices (sources.map (·.size))) {f : File} (hf : f ∈ files) {t : Tree}
    (ht : t ∈ (fileTree settings f).nodes) : t.span.start ≠ 0 ∧ t.span.stop ≠ 0 := by
  obtain ⟨⟨s, base⟩, hzip, hs⟩ := exists_partner (forall₂_isPlaced hfiles htrees hfit) hf
  have hbase := (Positions.bounds_of_mem_zip hfit hzip).1
  exact Span.ne_zero_of_liesIn (hs t ht) hbase

/-- Positions never leave their file. Take any tree over a source, bad or not, in which nodes do not
end before they start or after the source: whatever a walk of its file visits lies between the base
and where the source ends. So where the files of a directory leave enough positions, every position
below a file comes before every one below a later file, whatever package they are in, and none is
zero. -/
theorem positions_confined :
    (∀ (src : Placed) (root : Concrete) (f : File), root.Within src.source.length →
      src.base.toNat + src.source.length ≤ Positions.limit → Lowering.file src root = .ok f →
      ∀ n ∈ (Node.file f).visited,
        n.span.LiesIn src.base.toNat (src.base.toNat + src.source.length)) ∧
    (∀ (w : Workspace) (settings : Settings) (dir suffix : String) (sources : List SourceFile)
      (packages : List (String × Tree)),
      SourceFile.list w.root dir suffix settings.fileSizeLimit = .ok sources →
      w.parseDirectory settings dir suffix = .ok packages →
      (∀ s ∈ sources, ∀ root ∈ s.content.tree, root.Within s.size) →
      Positions.start.Suffices (sources.map (·.size)) →
      ∃ files, parseAll settings sources = .ok files ∧
        List.Forall₂ (fun s f => IsPlaced settings s.1 s.2 f)
          (sources.zip (basesOf sources)) files ∧
        (packages.flatMap (·.2.children)).Perm (files.map (fileTree settings)) ∧
        (files.map (fileTree settings)).Pairwise Tree.Before ∧
        ∀ p ∈ packages, ∀ t ∈ p.2.nodes, t.span.start ≠ 0 ∧ t.span.stop ≠ 0) := by
  constructor
  · intro src root f hroot hfit hf n hn
    exact Lowering.span_liesIn hroot hfit hf hn
  · intro w settings dir suffix sources packages hlist hpackages htrees hfit
    rw [parseDirectory_of_list hlist] at hpackages
    obtain ⟨-, files, hfiles, -⟩ := packagesOf_eq_ok.1 hpackages
    refine ⟨files, hfiles, forall₂_isPlaced hfiles htrees hfit, perm_children hfiles hpackages,
      pairwise_before hfiles htrees hfit, ?_⟩
    intro p hp t ht
    obtain ⟨htree, hne⟩ := (mem_packagesOf hfiles hpackages).1 hp
    have hnamed {f : File} (hf : f ∈ Package.named p.1 files) : f ∈ files :=
      (List.mem_filter.1 hf).1
    have hnonzero {f : File} (hf : f ∈ Package.named p.1 files) {u : Tree}
        (hu : u ∈ (fileTree settings f).nodes) : u.span.start ≠ 0 ∧ u.span.stop ≠ 0 :=
      fileTree_ne_zero hfiles htrees hfit (hnamed hf) hu
    rw [htree] at ht
    rcases Tree.mem_nodes.1 ht with rfl | ⟨c, hc, ht⟩
    · obtain ⟨first, last, hspan, hfirst, hlast⟩ := span_treeOf settings p.1 hne
      have hself {f : File} (hf : f ∈ Package.named p.1 files) :
          f.span.start ≠ 0 ∧ f.span.stop ≠ 0 :=
        span_fileTree settings f ▸ hnonzero hf (Tree.mem_nodes.2 (.inl rfl))
      rw [hspan]
      exact ⟨(hself (List.mem_of_mem_head? hfirst)).1, (hself (List.mem_of_mem_getLast? hlast)).2⟩
    · obtain ⟨f, hf, rfl⟩ := List.mem_map.1 hc
      exact hnonzero hf ht

/-- Of three files in two packages each lies before the next one. -/
theorem confined_threeFiles :
    (∃ f, Lowering.file ⟨(clauseOnly "q").source, 21⟩ (clauseOnly "q").tree = .ok f ∧
      ∀ n ∈ (Node.file f).visited, n.span.LiesIn 21 30) ∧
    ([clauseFile 1 "q", clauseFile 11 "p", clauseFile 21 "q"].map (fileTree default)).Pairwise
      Tree.Before ∧
    ∀ p ∈ threePackages, ∀ t ∈ p.2.nodes, t.span.start ≠ 0 ∧ t.span.stop ≠ 0 := by
  have htree : (clauseOnly "q").tree.Within (clauseOnly "q").source.length := by decide +kernel
  have htrees : ∀ s ∈ threeSources, ∀ root ∈ s.content.tree, root.Within s.size := by decide +kernel
  obtain ⟨files, hfiles, -, -, hbefore, hzero⟩ := positions_confined.2 threeFiles default "." ".go"
    threeSources threePackages list_threeFiles parseDirectory_threeFiles htrees
    suffices_threeSources
  rw [parseAll_threeSources] at hfiles
  cases hfiles
  refine ⟨⟨_, rfl, ?_⟩, hbefore, hzero⟩
  exact positions_confined.1 ⟨(clauseOnly "q").source, 21⟩ (clauseOnly "q").tree _ htree
    (by decide +kernel) rfl

end Workspace

end UniformTree
