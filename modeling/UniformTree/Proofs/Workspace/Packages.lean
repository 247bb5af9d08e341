import UniformTree.Proofs.Workspace.Listing
/-!
# The packages of a directory

Where all source files of a directory can be parsed, there is one tree for each package name, with
the trees of the files of that name below it (`Workspace.mem_packagesOf`). Together the packages
hold the tree of each file once (`Workspace.perm_children`).
-/

namespace UniformTree

namespace Workspace

variable {settings : Settings} {dir : String} {sources : List SourceFile} {files : List File}
  {packages : List (String × Tree)} {p : String × Tree} {name : String}

/-- The uniform tree of a file. -/
def fileTree (settings : Settings) (f : File) : Tree :=
  (Node.file f).normalize settings.buildOptions

/-- The uniform tree of a package, from its name and its files. -/
def treeOf (settings : Settings) (name : String) (files : List File) : Tree :=
  ⟨.package, Span.coverAll (files.map (·.span)), some name, files.map (fileTree settings)⟩

theorem span_fileTree (settings : Settings) (f : File) : (fileTree settings f).span = f.span := by
  rw [fileTree, Node.normalize_eq, Node.span_tree]
  rfl

/-- A package begins where its first file does and ends where its last one does. -/
theorem span_treeOf (settings : Settings) (name : String) (hne : files ≠ []) :
    ∃ first last, (treeOf settings name files).span = Span.cover first.span last.span ∧
      files.head? = some first ∧ files.getLast? = some last := by
  have hfirst := List.head?_eq_some_head hne
  have hlast := List.getLast?_eq_some_getLast hne
  refine ⟨files.head hne, files.getLast hne, ?_, hfirst, hlast⟩
  rw [treeOf, Span.coverAll, List.head?_map, List.getLast?_map, hfirst, hlast]
  rfl

theorem packageTree_ofFiles (settings : Settings) (name : String) (files : List File) :
    packageTree settings (Package.ofFiles name files) = (name, treeOf settings name files) := by
  have hkept (f : File) : (Node.file f).isKept settings.buildOptions = true := Bool.or_true _
  have hitems : Node.itemTrees settings.buildOptions (files.map Node.file) =
      files.map (fileTree settings) := by
    rw [Node.itemTrees_map settings.buildOptions hkept]
    exact List.map_congr_left fun f _ => (Node.normalize_eq _ _).symm
  rw [packageTree, Node.normalize_eq, Node.tree_eq, treeOf, ← hitems]
  rfl

theorem map_packageTree (settings : Settings) (files : List File) :
    (Package.ofAll files).map (packageTree settings) =
      (Package.group files).map fun g => (g.1, treeOf settings g.1 g.2) := by
  rw [Package.ofAll, List.map_map]
  exact List.map_congr_left fun g _ => packageTree_ofFiles settings g.1 g.2

theorem parseDirectory_of_list {w : Workspace} {suffix : String}
    (h : SourceFile.list w.root dir suffix settings.fileSizeLimit = .ok sources) :
    w.parseDirectory settings dir suffix = packagesOf settings dir sources := by
  rw [parseDirectory, h]

/-- There are packages if there are source files and each of them can be parsed. -/
theorem packagesOf_eq_ok : packagesOf settings dir sources = .ok packages ↔
    sources ≠ [] ∧ ∃ files, SourceFile.parseAll settings sources = .ok files ∧
      packages = (Package.group files).map fun g => (g.1, treeOf settings g.1 g.2) := by
  unfold packagesOf
  cases sources with
  | nil => simp
  | cons s ss =>
    simp only [List.isEmpty_cons, Bool.false_eq_true, if_false]
    cases SourceFile.parseAll settings (s :: ss) with
    | error e => simp
    | ok files => simp [map_packageTree, eq_comm]

section Ok

variable (hfiles : SourceFile.parseAll settings sources = .ok files)
  (h : packagesOf settings dir sources = .ok packages)

include hfiles h

theorem packages_eq :
    packages = (Package.group files).map fun g => (g.1, treeOf settings g.1 g.2) := by
  obtain ⟨-, others, hothers, hpackages⟩ := packagesOf_eq_ok.1 h
  rw [hfiles] at hothers
  rwa [Except.ok.inj hothers]

/-- The packages stand in ascending order of their names. -/
theorem ascending_packages : Ascending packages := by
  rw [packages_eq hfiles h, Ascending, List.pairwise_map]
  exact Package.ascending_group files

/-- A package is that of the files of its name, of which there is one at least. -/
theorem mem_packagesOf : p ∈ packages ↔
    p.2 = treeOf settings p.1 (Package.named p.1 files) ∧ Package.named p.1 files ≠ [] := by
  rw [packages_eq hfiles h, List.mem_map]
  constructor
  · rintro ⟨g, hg, rfl⟩
    obtain ⟨heq, hne⟩ := Package.mem_group.1 hg
    exact ⟨congrArg (treeOf settings g.1) heq, heq ▸ hne⟩
  · rintro ⟨heq, hne⟩
    refine ⟨(p.1, Package.named p.1 files), Package.mem_group.2 ⟨rfl, hne⟩, ?_⟩
    exact Prod.ext rfl heq.symm

/-- A name is that of a package if a file has it. -/
theorem mem_names : name ∈ packages.map (·.1) ↔ ∃ f ∈ files, f.name.name = name := by
  have hnamed : Package.named name files ≠ [] ↔ ∃ f ∈ files, f.name.name = name := by
    simp [Package.named]
  rw [← hnamed, List.mem_map]
  constructor
  · rintro ⟨p, hp, rfl⟩
    exact ((mem_packagesOf hfiles h).1 hp).2
  · intro hne
    refine ⟨(name, treeOf settings name (Package.named name files)), ?_, rfl⟩
    exact (mem_packagesOf hfiles h).2 ⟨rfl, hne⟩

/-- The trees of the files lie below the packages, each of them once. -/
theorem perm_children :
    (packages.flatMap (·.2.children)).Perm (files.map (fileTree settings)) := by
  have hflat : packages.flatMap (·.2.children) =
      ((Package.group files).flatMap (·.2)).map (fileTree settings) := by
    rw [packages_eq hfiles h, List.flatMap_map, List.map_flatMap]
    rfl
  rw [hflat]
  exact (Package.flatMap_group files).map _

end Ok

/-! ## A directory of three source files -/

end Workspace

open Concrete in
/-- A package clause, with a name of one letter, and nothing else. -/
def clauseOnly (letter : String) : Document where
  source := Source.ofString ("package " ++ letter)
  tree := rule "source_file" none 0 9 [
    rule "package_clause" none 0 9 [
      token "package" 0 7, rule "package_identifier" none 8 9 []]]

/-- A file that holds a package clause and nothing else. -/
def clauseContent (letter : String) : Content :=
  ⟨(clauseOnly letter).source.bytes, some (clauseOnly letter).tree⟩

/-- What such a file is parsed to at a base. -/
def clauseFile (base : UInt32) (name : String) : File :=
  ⟨⟨base, base + 9⟩, none, ⟨⟨base + 8, base + 9⟩, name⟩, [], []⟩

theorem parse_clauseContent {letter path : String} {b : UInt32} {f : File}
    (h : Lowering.file ⟨(clauseOnly letter).source, b⟩ (clauseOnly letter).tree = .ok f) :
    (clauseContent letter).parse 1000 path b = .ok f := by
  rw [Content.parse_of_tree rfl]
  exact Document.parse_of_file (by decide : 3 ≤ 1001) rfl h

namespace Workspace

open SourceFile

/-- The first and the last of three source files are of one package, and a fourth file is no source
file. -/
def threeFiles : Workspace where
  root := .directory [("a.go", .file (clauseContent "q")), ("b.go", .file (clauseContent "p")),
    ("c.go", .file (clauseContent "q")), ("notes.txt", .file (clauseContent "r"))]
  bindings := []
  distinct := .directory (by decide) (by simp [Item.Distinct.file])

def threeSources : List SourceFile :=
  [⟨"./a.go", "a.go", clauseContent "q"⟩, ⟨"./b.go", "b.go", clauseContent "p"⟩,
    ⟨"./c.go", "c.go", clauseContent "q"⟩]

def threePackages : List (String × Tree) :=
  [("p", treeOf default "p" [clauseFile 11 "p"]),
    ("q", treeOf default "q" [clauseFile 1 "q", clauseFile 21 "q"])]

theorem find_threeFiles : threeFiles.root.find "." = .ok threeFiles.root := rfl

theorem amongEntries_threeFiles :
    amongEntries "." ".go" threeFiles.root.entries = threeSources := by
  have hsort : sortEntries threeFiles.root.entries = threeFiles.root.entries :=
    List.mergeSort_of_pairwise (by decide +kernel)
  rw [amongEntries, hsort]
  rfl

theorem list_threeFiles :
    SourceFile.list threeFiles.root "." ".go" (Settings.fileSizeLimit default) =
      .ok threeSources := by
  rw [list_eq _ _ find_threeFiles, amongEntries_threeFiles]
  rfl

theorem parseAll_threeSources : parseAll default threeSources =
    .ok [clauseFile 1 "q", clauseFile 11 "p", clauseFile 21 "q"] := by
  have hbases : basesOf threeSources = [1, 11, 21] := by decide +kernel
  rw [parseAll_eq_ok, hbases]
  refine .cons (parse_clauseContent ?_)
    (.cons (parse_clauseContent ?_) (.cons (parse_clauseContent ?_) .nil))
  · with_unfolding_all rfl
  · with_unfolding_all rfl
  · with_unfolding_all rfl

theorem parseDirectory_threeFiles :
    threeFiles.parseDirectory default "." ".go" = .ok threePackages := by
  have hne : threeSources ≠ [] := List.cons_ne_nil _ _
  rw [parseDirectory_of_list list_threeFiles, packagesOf_eq_ok]
  exact ⟨hne, _, parseAll_threeSources, rfl⟩

theorem suffices_threeSources : Positions.start.Suffices (threeSources.map (·.size)) := by
  decide +kernel

end Workspace

end UniformTree
