import UniformTree.Proofs.Workspace.Listing
import UniformTree.Proofs.Workspace.Packages
/-!
# The packages partition the files

What comes of a directory depends on its source files alone: the error of the first one that is too
large, or that there is none, or the error of the first one that cannot be parsed, or packages that
share the trees of the files among them.
-/

namespace UniformTree

namespace Workspace

open SourceFile

variable {settings : Settings} {dir suffix : String} {sources : List SourceFile}

/-- The packages share the trees of some files among them: there is one for each name that a file
has, by ascending bytes of the names, and the trees of the files of that name lie below it in their
order. Together they have each tree once. -/
structure Shares (settings : Settings) (files : List File) (packages : List (String × Tree)) :
    Prop where
  ascending : packages.Pairwise fun p q => Text.bytes p.1 < Text.bytes q.1
  names : ∀ k, k ∈ packages.map (·.1) ↔ ∃ f ∈ files, f.name.name = k
  trees : ∀ p ∈ packages, ∃ first last,
    (files.filter (·.name.name == p.1)).head? = some first ∧
    (files.filter (·.name.name == p.1)).getLast? = some last ∧
    p.2 = ⟨.package, Span.cover first.span last.span, some p.1,
      (files.filter (·.name.name == p.1)).map (fileTree settings)⟩
  perm : (packages.flatMap (·.2.children)).Perm (files.map (fileTree settings))

/-- What comes of a directory with some source files, in ascending order of their names. -/
structure Outcome (settings : Settings) (dir : String) (sources : List SourceFile)
    (result : Except Error (List (String × Tree))) : Prop where
  tooLarge : ∀ s, sources.find? (isTooLarge settings.fileSizeLimit) = some s →
    result = .error (.scan (.tooLarge s.path (UInt64.ofNat s.size) settings.fileSizeLimit))
  noneIn : sources = [] → result = .error (.package (.noneIn dir))
  parse : sources.find? (isTooLarge settings.fileSizeLimit) = none →
    ∀ e, sources.findSome? (fun s => failure? (s.alone settings)) = some e →
      result = .error (.parse e)
  packages : sources.find? (isTooLarge settings.fileSizeLimit) = none → sources ≠ [] →
    sources.findSome? (fun s => failure? (s.alone settings)) = none →
    ∃ files packages, result = .ok packages ∧ Shares settings files packages ∧
      List.Forall₂
        (fun s f => s.1.content.parse settings.nestingLimit s.1.path s.2 = .ok f)
        (sources.zip (basesOf sources)) files

/-- One package of a directory, from all of its packages. -/
structure Picks (dir : String) (result : Except Error (List (String × Tree)))
    (pick : String → Except Error Tree) : Prop where
  error : ∀ e, result = .error e → ∀ k, pick k = .error e
  found : ∀ packages, result = .ok packages → ∀ p ∈ packages, pick p.1 = .ok p.2
  notFound : ∀ packages, result = .ok packages → ∀ k, k ∉ packages.map (·.1) →
    pick k = .error (.package (.notFound k dir))

theorem shares_of_packagesOf {files : List File} {packages : List (String × Tree)}
    (hfiles : parseAll settings sources = .ok files)
    (h : packagesOf settings dir sources = .ok packages) : Shares settings files packages := by
  constructor
  · exact (ascending_packages hfiles h).imp fun hlt => Text.bytes_lt hlt
  · exact fun k => mem_names hfiles h
  · intro p hp
    obtain ⟨htree, hne⟩ := (mem_packagesOf hfiles h).1 hp
    obtain ⟨first, last, hspan, hfirst, hlast⟩ := span_treeOf settings p.1 hne
    refine ⟨first, last, hfirst, hlast, ?_⟩
    rw [htree, ← hspan]
    rfl
  · exact perm_children hfiles h

theorem outcome_packagesOf (settings : Settings) (dir : String) (sources : List SourceFile)
    (hsizes : sources.find? (isTooLarge settings.fileSizeLimit) = none) :
    Outcome settings dir sources (packagesOf settings dir sources) := by
  constructor
  · intro s hs
    rw [hsizes] at hs
    cases hs
  · rintro rfl
    rfl
  · intro _ e he
    have hne : sources ≠ [] := by
      rintro rfl
      cases he
    rw [packagesOf, parseAll_eq_error.2 he]
    simp [hne]
  · intro _ hne hparse
    cases hall : parseAll settings sources with
    | error e =>
      rw [parseAll_eq_error.1 hall] at hparse
      cases hparse
    | ok files =>
      have hpackages : packagesOf settings dir sources = .ok _ :=
        packagesOf_eq_ok.2 ⟨hne, files, hall, rfl⟩
      exact ⟨files, _, hpackages, shares_of_packagesOf hall hpackages, parseAll_eq_ok.1 hall⟩

theorem outcome_parseDirectory {w : Workspace} {item : Item} (hfind : w.root.find dir = .ok item) :
    Outcome settings dir (amongEntries dir suffix item.entries)
      (w.parseDirectory settings dir suffix) := by
  have hlist := list_eq suffix settings.fileSizeLimit hfind
  cases hsizes :
    (amongEntries dir suffix item.entries).find? (isTooLarge settings.fileSizeLimit) with
  | none =>
    rw [hsizes] at hlist
    rw [parseDirectory_of_list hlist]
    exact outcome_packagesOf settings dir _ hsizes
  | some s =>
    rw [hsizes] at hlist
    have hresult : w.parseDirectory settings dir suffix =
        .error (.scan (s.tooLarge settings.fileSizeLimit)) := by
      rw [parseDirectory, hlist]
    constructor
    · intro t ht
      rw [hsizes] at ht
      cases ht
      exact hresult
    · intro hnil
      rw [hnil] at hsizes
      cases hsizes
    · intro hnone
      rw [hsizes] at hnone
      cases hnone
    · intro hnone
      rw [hsizes] at hnone
      cases hnone

/-- The packages of a directory are in ascending order. -/
theorem ascending_parseDirectory {w : Workspace} {packages : List (String × Tree)}
    (h : w.parseDirectory settings dir suffix = .ok packages) : Ascending packages := by
  unfold parseDirectory at h
  split at h
  · cases h
  · obtain ⟨-, files, hfiles, -⟩ := packagesOf_eq_ok.1 h
    exact ascending_packages hfiles h

theorem picks_parsePackage (w : Workspace) (settings : Settings) (dir suffix : String) :
    Picks dir (w.parseDirectory settings dir suffix) (w.parsePackage settings dir suffix) := by
  constructor
  · intro e he k
    rw [parsePackage, he]
  · intro packages h p hp
    rw [parsePackage, h]
    simp only
    rw [lookup_of_mem (ascending_parseDirectory h) hp]
  · intro packages h k hk
    rw [parsePackage, h]
    simp only
    rw [lookup_of_not_mem hk]

/-- A directory is partitioned into packages. Its source files are those whose names end in the
suffix, by ascending bytes of their names. The first one that is too large is an error, else it is
one if there is none, and else the first one that cannot be parsed; if all can be parsed then the
packages share their trees. Nothing else in the directory matters, and one package is asked for by
its name. -/
theorem parseDirectory_partition (settings : Settings) (suffix : String) {w : Workspace}
    {item : Item} (hfind : w.root.find dir = .ok item) :
    ∃ sources, IsListing dir suffix item.entries sources ∧
      Outcome settings dir sources (w.parseDirectory settings dir suffix) ∧
      Picks dir (w.parseDirectory settings dir suffix) (w.parsePackage settings dir suffix) ∧
      ∀ (w' : Workspace) (item' : Item), w'.root.find dir = .ok item' →
        IsListing dir suffix item'.entries sources →
        w'.parseDirectory settings dir suffix = w.parseDirectory settings dir suffix := by
  have hnames := (w.distinct.of_find hfind).names_entries
  refine ⟨amongEntries dir suffix item.entries, isListing_amongEntries hnames,
    outcome_parseDirectory hfind, picks_parsePackage w settings dir suffix, ?_⟩
  intro w' item' hfind' hlisting
  have hnames' := (w'.distinct.of_find hfind').names_entries
  have hsame := (isListing_amongEntries hnames').unique hlisting
  rw [parseDirectory, parseDirectory, list_eq _ _ hfind, list_eq _ _ hfind', hsame]

/-- Of three files two are in one package and there is none of another name; and where files may not
have more than eight bytes the first one is too large. -/
theorem partition_threeFiles :
    (∃ sources, IsListing "." ".go" threeFiles.root.entries sources ∧
      Outcome default "." sources (.ok threePackages)) ∧
    threeFiles.parsePackage default "." ".go" "q" =
      .ok (treeOf default "q" [clauseFile 1 "q", clauseFile 21 "q"]) ∧
    threeFiles.parsePackage default "." ".go" "r" = .error (.package (.notFound "r" ".")) ∧
    threeFiles.parseDirectory ⟨some 8, none, none, none⟩ "." ".go" =
      .error (.scan (.tooLarge "./a.go" 9 8)) := by
  have hnames : (threeFiles.root.entries.map (·.1)).Nodup := threeFiles.distinct.names_entries
  obtain ⟨sources, hlisting, houtcome, hpicks, -⟩ :=
    parseDirectory_partition default ".go" find_threeFiles
  obtain ⟨others, hlisting', houtcome', -⟩ :=
    parseDirectory_partition ⟨some 8, none, none, none⟩ ".go" find_threeFiles
  rw [parseDirectory_threeFiles] at houtcome hpicks
  refine ⟨⟨sources, hlisting, houtcome⟩, ?_, ?_, ?_⟩
  · exact hpicks.found threePackages rfl _ (List.mem_cons_of_mem _ List.mem_cons_self)
  · exact hpicks.notFound threePackages rfl "r" (by decide +kernel)
  · have hothers : others = threeSources :=
      hlisting'.unique (amongEntries_threeFiles ▸ isListing_amongEntries hnames)
    rw [hothers] at houtcome'
    exact houtcome'.tooLarge ⟨"./a.go", "a.go", clauseContent "q"⟩ rfl

end Workspace

end UniformTree
