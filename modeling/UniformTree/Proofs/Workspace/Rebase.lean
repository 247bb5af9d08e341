import UniformTree.Proofs.Workspace.Packages
/-!
# A directory and its files one by one

A file of a directory has the tree that it has by itself, with all positions shifted by as much as
its base differs from the first one. That holds of the lowering of any tree at any two bases, and
where the positions are enough the shift is one of numbers.
-/

namespace UniformTree

/-- The ends of one span lie as far behind one base as the ends of another behind another. -/
def Span.MovesTo (b b' : UInt32) (s t : Span) : Prop :=
  t.start.toNat + b.toNat = s.start.toNat + b'.toNat ∧
  t.stop.toNat + b.toNat = s.stop.toNat + b'.toNat

/-- No position goes beyond the last one on the way to a base that leaves enough of them. -/
theorem Span.movesTo_shift {s : Span} {b b' : UInt32} {length : Nat}
    (hs : s.LiesIn b.toNat (b.toNat + length)) (hfit : b'.toNat + length ≤ Positions.limit) :
    s.MovesTo b b' (s.shift (b' - b)) := by
  have hpos {p : UInt32} (hp : b.toNat ≤ p.toNat ∧ p.toNat ≤ b.toNat + length) :
      (p + (b' - b)).toNat + b.toNat = p.toNat + b'.toNat := by
    have hlimit : Positions.limit = 2 ^ 32 - 1 := rfl
    have hb := b.toNat_lt
    rw [UInt32.toNat_add, UInt32.toNat_sub]
    omega
  exact ⟨hpos hs.1, hpos hs.2⟩

namespace Workspace

open SourceFile

variable {settings : Settings} {sources : List SourceFile} {files : List File}

/-- What the tree of a file that is read together with others has to do with the tree that the file
has by itself: it is shifted to its base, and by as many places where no node of the concrete tree
leaves the source. -/
def IsRebased (settings : Settings) (s : SourceFile) (base : UInt32) (f : File) : Prop :=
  ∃ t, s.content.uniform settings s.path = .ok t ∧
    fileTree settings f = t.shift (base - 1) ∧
    ((∀ root ∈ s.content.tree, root.Within s.size) →
      ∀ u ∈ t.nodes, u.span.MovesTo 1 base (u.span.shift (base - 1)))

/-- A file at any base that leaves enough positions. -/
theorem isRebased_of_parse {s : SourceFile} {base : UInt32} {f : File} (hbase : 1 ≤ base.toNat)
    (hfit : base.toNat + s.size ≤ Positions.limit)
    (h : s.content.parse settings.nestingLimit s.path base = .ok f) :
    IsRebased settings s base f := by
  obtain ⟨a, ha, rfl⟩ := exists_alone h
  refine ⟨fileTree settings a, ?_, Node.normalize_shift (base - 1) (.file a), ?_⟩
  · rw [Content.uniform_eq, ← alone, ha]
    rfl
  · intro htree u hu
    rw [fileTree, Node.normalize_eq] at hu
    obtain ⟨n, hn, rfl⟩ := Node.exists_visited hu
    have hone : (1 : UInt32).toNat + s.size ≤ Positions.limit := Nat.le_trans (by simpa) hfit
    have hlies := Content.span_liesIn htree hone ha hn
    rw [Node.span_tree]
    exact Span.movesTo_shift hlies hfit

/-- The files of a directory, each at its base. -/
theorem forall₂_isRebased (hfiles : parseAll settings sources = .ok files)
    (hfit : Positions.start.Suffices (sources.map (·.size))) :
    List.Forall₂ (fun s f => IsRebased settings s.1 s.2 f) (sources.zip (basesOf sources))
      files := by
  refine forall₂_parsed hfiles hfit ?_
  intro s _ base f hbase hlimit hparse
  exact isRebased_of_parse hbase hlimit hparse

/-- The directory path and the single-file path agree up to positions. A tree describes the same
file at any two bases but for a shift of all positions, and the same error; where both bases leave
enough positions for the source the shift is one of numbers. So the tree of each file below the
packages of a directory is the tree that the file has by itself, shifted from the first base to its
own. -/
theorem parse_rebased :
    (∀ (d : Document) (path : String) (b b' : UInt32),
      d.lower path b' = (d.lower path b).map (File.relocate (.shift (b' - b))) ∧
      ∀ f, d.lower path b = .ok f → d.tree.Within d.source.length →
        b.toNat + d.source.length ≤ Positions.limit →
        b'.toNat + d.source.length ≤ Positions.limit →
        ∀ n ∈ (Node.file f).visited,
          n.span.MovesTo b b' (n.relocate (.shift (b' - b))).span) ∧
    (∀ (w : Workspace) (settings : Settings) (dir suffix : String) (sources : List SourceFile)
      (packages : List (String × Tree)),
      SourceFile.list w.root dir suffix settings.fileSizeLimit = .ok sources →
      w.parseDirectory settings dir suffix = .ok packages →
      Positions.start.Suffices (sources.map (·.size)) →
      ∃ files, parseAll settings sources = .ok files ∧
        (∀ p ∈ packages, p.2.children = (Package.named p.1 files).map (fileTree settings)) ∧
        (∀ f ∈ files, f.name.name ∈ packages.map (·.1)) ∧
        List.Forall₂ (fun s f => IsRebased settings s.1 s.2 f)
          (sources.zip (basesOf sources)) files) := by
  constructor
  · intro d path b b'
    refine ⟨d.lower_shift path b b', ?_⟩
    intro f hf hroot hb hb' n hn
    have hlies := Lowering.span_liesIn hroot hb (Document.file_of_lower hf) hn
    rw [Node.span_relocate]
    exact Span.movesTo_shift hlies hb'
  · intro w settings dir suffix sources packages hlist hpackages hfit
    rw [parseDirectory_of_list hlist] at hpackages
    obtain ⟨-, files, hfiles, -⟩ := packagesOf_eq_ok.1 hpackages
    refine ⟨files, hfiles, ?_, ?_, forall₂_isRebased hfiles hfit⟩
    · intro p hp
      rw [((mem_packagesOf hfiles hpackages).1 hp).1]
      rfl
    · intro f hf
      exact (mem_names hfiles hpackages).2 ⟨f, hf, rfl⟩

/-- The last one of three files lies 20 places further on than by itself. -/
theorem rebased_threeFiles :
    (∃ f, (clauseOnly "q").lower "c.go" 1 = .ok f ∧ ∀ n ∈ (Node.file f).visited,
      n.span.MovesTo 1 21 (n.relocate (.shift 20)).span) ∧
    IsRebased default ⟨"./c.go", "c.go", clauseContent "q"⟩ 21 (clauseFile 21 "q") := by
  have htree : (clauseOnly "q").tree.Within (clauseOnly "q").source.length := by decide +kernel
  constructor
  · refine ⟨_, rfl, ?_⟩
    exact (parse_rebased.1 (clauseOnly "q") "c.go" 1 21).2 _ rfl htree (by decide +kernel)
      (by decide +kernel)
  · obtain ⟨files, hfiles, -, -, hrebased⟩ := parse_rebased.2 threeFiles default "." ".go"
      threeSources threePackages list_threeFiles parseDirectory_threeFiles suffices_threeSources
    have hbases : basesOf threeSources = [1, 11, 21] := by decide +kernel
    rw [parseAll_threeSources] at hfiles
    cases hfiles
    rw [hbases] at hrebased
    rcases hrebased with _ | ⟨_, _ | ⟨_, _ | ⟨hlast, _⟩⟩⟩
    exact hlast

end Workspace

end UniformTree
