import Mathlib.Data.List.Forall2
import UniformTree.Proofs.Concrete.Descent
import UniformTree.Proofs.Package.Bases
import UniformTree.Proofs.Package.Grouping
import UniformTree.Proofs.Relocation.Origins
import UniformTree.Proofs.Tree.Nodes
import UniformTree.Workspace.Basic
/-!
# Source files that are read together

A source file is parsed at a base that depends on the files before it. At whichever base that is, it
is the file that is parsed alone with its positions shifted, and fails for the same reason
(`Document.parse_shift`). So it can be said of each file by itself whether the files of a directory
can be parsed (`SourceFile.parseAll_eq_error`) and what comes of it (`SourceFile.parseAll_eq_ok`).
-/

namespace UniformTree

/-! ## One result for each element -/

section Results

variable {ε α β : Type} {g : α → Except ε β} {xs : List α} {ys : List β} {e : ε}

/-- Why there is no result, if there is none. -/
def failure? : Except ε α → Option ε
  | .error e => some e
  | .ok _ => none

theorem failure?_eq_none {r : Except ε α} : failure? r = none ↔ ∃ a, r = .ok a := by
  cases r <;> simp [failure?]

theorem mapM_eq_ok : xs.mapM g = .ok ys ↔ List.Forall₂ (fun x y => g x = .ok y) xs ys := by
  induction xs generalizing ys with
  | nil =>
    rw [List.mapM_nil, List.forall₂_nil_left_iff]
    exact ⟨fun h => (Except.ok.inj h).symm, fun h => h ▸ rfl⟩
  | cons x xs ih =>
    rw [List.mapM_cons, List.forall₂_cons_left_iff]
    constructor
    · intro h
      cases hx : g x with
      | error e => rw [hx] at h; cases h
      | ok y =>
        cases hxs : xs.mapM g with
        | error e => rw [hx, hxs] at h; cases h
        | ok zs =>
          rw [hx, hxs] at h
          exact ⟨y, zs, rfl, ih.1 hxs, (Except.ok.inj h).symm⟩
    · rintro ⟨y, zs, hx, hxs, rfl⟩
      rw [hx, ih.2 hxs]
      rfl

/-- The first failure is the one of the whole. -/
theorem mapM_eq_error :
    xs.mapM g = .error e ↔ xs.findSome? (fun x => failure? (g x)) = some e := by
  induction xs with
  | nil => simp [pure, Except.pure]
  | cons x xs ih =>
    rw [List.mapM_cons, List.findSome?_cons]
    cases hx : g x with
    | error d => simp [bind, Except.bind, failure?]
    | ok y =>
      have htail : failure? (g x) = none := failure?_eq_none.2 ⟨y, hx⟩
      rw [← hx, htail, hx]
      simp only
      rw [← ih]
      cases hxs : xs.mapM g with
      | error d => simp [bind, Except.bind]
      | ok ys => simp [bind, Except.bind, pure, Except.pure]

end Results

/-! ## Documents at another base -/

/-- At another base a tree is given positions that are all shifted alike. -/
theorem Relocation.fits_shift (source : Source) (b b' : UInt32) (n : Concrete) :
    (Relocation.shift (b' - b)).Fits ⟨source, b⟩ ⟨source, b'⟩ n := by
  have hpos (byte : Nat) : (Placed.mk source b).pos byte + (b' - b) =
      (Placed.mk source b').pos byte := by
    simp only [Placed.pos]
    grind
  exact
    { source := rfl
      starts := fun c _ => hpos c.start
      stops := fun c _ => hpos c.stop
      texts := fun _ _ => rfl
      noNames := fun _ _ => rfl
      noPaths := fun _ _ _ _ _ _ => rfl }

namespace Document

variable (d : Document) (path : String) (b b' : UInt32)

theorem lower_shift :
    d.lower path b' = (d.lower path b).map (File.relocate (.shift (b' - b))) := by
  rw [lower, lower, Lowering.file_relocate (Relocation.fits_shift d.source b b' d.tree)]
  cases Lowering.file ⟨d.source, b⟩ d.tree <;> rfl

/-- At another base a document is refused for the same reason, and else it is the same file but for
its positions, which are all shifted alike. -/
theorem parse_shift (limit : UInt32) :
    d.parse limit path b' = (d.parse limit path b).map (File.relocate (.shift (b' - b))) := by
  unfold parse
  cases d.tree.tooDeep? limit.toNat with
  | some deep => rfl
  | none =>
    cases Fault.first? d.source d.tree with
    | some f => rfl
    | none => exact d.lower_shift path b b'

variable {d path b}

theorem file_of_lower {f : File} (h : d.lower path b = .ok f) :
    Lowering.file ⟨d.source, b⟩ d.tree = .ok f := by
  unfold lower at h
  cases hf : Lowering.file ⟨d.source, b⟩ d.tree with
  | error e => rw [hf] at h; cases h
  | ok g => rw [hf] at h; exact congrArg Except.ok (Except.ok.inj h)

/-- A document without a node that is too deep or faulty is the file that its tree describes. -/
theorem parse_of_file {limit : UInt32} {f : File} (hdeep : d.tree.height ≤ limit.toNat + 1)
    (hfault : Fault.first? d.source d.tree = none)
    (h : Lowering.file ⟨d.source, b⟩ d.tree = .ok f) : d.parse limit path b = .ok f := by
  rw [parse, Concrete.tooDeep?_eq_none.2 hdeep, hfault]
  simp only
  rw [lower, h]
  rfl

/-- What is parsed is what the tree describes. -/
theorem file_of_parse {limit : UInt32} {f : File} (h : d.parse limit path b = .ok f) :
    Lowering.file ⟨d.source, b⟩ d.tree = .ok f := by
  unfold parse at h
  split at h
  · cases h
  · split at h
    · cases h
    · exact file_of_lower h

end Document

/-! ## Contents at another base -/

namespace Content

variable {c : Content} {limit : UInt32} {path : String} {b : UInt32} {root : Concrete}

theorem parse_of_tree (h : c.tree = some root) (limit : UInt32) (path : String) (b : UInt32) :
    c.parse limit path b = Document.parse ⟨⟨c.bytes⟩, root⟩ limit path b := by
  rw [parse, document, h]
  rfl

theorem parse_of_no_tree (h : c.tree = none) (limit : UInt32) (path : String) (b : UInt32) :
    c.parse limit path b = .error (.noTree path) := by
  rw [parse, document, h]
  rfl

theorem uniform_eq (c : Content) (settings : Settings) (path : String) :
    c.uniform settings path = (c.parse settings.nestingLimit path Positions.start.next).map
      fun f => (Node.file f).normalize settings.buildOptions := by
  unfold uniform parse
  cases c.document path <;> rfl

/-- At another base a file is refused for the same reason, and else it is the same one but for its
positions. -/
theorem parse_shift (c : Content) (limit : UInt32) (path : String) (b b' : UInt32) :
    c.parse limit path b' = (c.parse limit path b).map (File.relocate (.shift (b' - b))) := by
  cases htree : c.tree with
  | none =>
    rw [parse_of_no_tree htree, parse_of_no_tree htree]
    rfl
  | some root =>
    rw [parse_of_tree htree, parse_of_tree htree]
    exact Document.parse_shift _ path b b' limit

/-- What is parsed is what the concrete tree describes, of which there is one. -/
theorem file_of_parse {f : File} (h : c.parse limit path b = .ok f) :
    ∃ root ∈ c.tree, Lowering.file ⟨⟨c.bytes⟩, b⟩ root = .ok f := by
  cases htree : c.tree with
  | none =>
    rw [parse_of_no_tree htree] at h
    cases h
  | some root =>
    rw [parse_of_tree htree] at h
    exact ⟨root, rfl, Document.file_of_parse h⟩

/-- The positions in a file are those of its bytes. -/
theorem span_liesIn {f : File} {n : Node} (htree : ∀ root ∈ c.tree, root.Within c.size)
    (hfit : b.toNat + c.size ≤ Positions.limit) (h : c.parse limit path b = .ok f)
    (hn : n ∈ (Node.file f).visited) : n.span.LiesIn b.toNat (b.toNat + c.size) := by
  obtain ⟨root, hroot, hfile⟩ := file_of_parse h
  have hwithin : root.Within (Placed.mk ⟨c.bytes⟩ b).source.length := htree root hroot
  exact Lowering.span_liesIn hwithin hfit hfile hn

end Content

/-! ## Parsing all files -/

namespace SourceFile

variable {settings : Settings} {sources : List SourceFile} {files : List File} {e : ParseError}

/-- A source file that is parsed by itself. -/
def alone (settings : Settings) (s : SourceFile) : Except ParseError File :=
  s.content.parse settings.nestingLimit s.path Positions.start.next

/-- The bases of source files that are read together. -/
def basesOf (sources : List SourceFile) : List UInt32 :=
  Positions.start.bases (sources.map size)

theorem length_basesOf (sources : List SourceFile) : (basesOf sources).length = sources.length := by
  rw [basesOf, Positions.length_bases, List.length_map]

/-- A file that is parsed at any base is the one that is parsed alone, shifted. -/
theorem exists_alone {s : SourceFile} {b : UInt32} {f : File}
    (h : s.content.parse settings.nestingLimit s.path b = .ok f) :
    ∃ a, s.alone settings = .ok a ∧ f = a.relocate (.shift (b - Positions.start.next)) := by
  rw [s.content.parse_shift _ s.path Positions.start.next b] at h
  unfold alone
  cases ha : s.content.parse settings.nestingLimit s.path Positions.start.next with
  | error e => rw [ha] at h; cases h
  | ok a =>
    rw [ha] at h
    exact ⟨a, rfl, (Except.ok.inj h).symm⟩

theorem failure?_parse (settings : Settings) (s : SourceFile) (b : UInt32) :
    failure? (s.content.parse settings.nestingLimit s.path b) =
      failure? (s.alone settings) := by
  rw [alone, s.content.parse_shift _ s.path Positions.start.next b]
  cases s.content.parse settings.nestingLimit s.path Positions.start.next <;> rfl

/-- The error of the first file that has one by itself is the error of them all. -/
theorem parseAll_eq_error : parseAll settings sources = .error e ↔
    sources.findSome? (fun s => failure? (s.alone settings)) = some e := by
  have hfst : (sources.zip (basesOf sources)).map Prod.fst = sources :=
    List.map_fst_zip (Nat.le_of_eq (length_basesOf sources).symm)
  rw [parseAll, mapM_eq_error]
  simp only [failure?_parse]
  rw [← hfst, List.findSome?_map, hfst]
  rfl

theorem parseAll_eq_ok : parseAll settings sources = .ok files ↔
    List.Forall₂ (fun s f => s.1.content.parse settings.nestingLimit s.1.path s.2 = .ok f)
      (sources.zip (basesOf sources)) files := mapM_eq_ok

/-- What holds of each source file that is parsed at a base which leaves it enough positions holds
of source files and their bases, if there are enough positions for all of them. -/
theorem forall₂_parsed {R : SourceFile → UInt32 → File → Prop}
    (hfiles : parseAll settings sources = .ok files)
    (hfit : Positions.start.Suffices (sources.map size))
    (h : ∀ s ∈ sources, ∀ (b : UInt32) (f : File), 1 ≤ b.toNat →
      b.toNat + s.size ≤ Positions.limit →
      s.content.parse settings.nestingLimit s.path b = .ok f → R s b f) :
    List.Forall₂ (fun s f => R s.1 s.2 f) (sources.zip (basesOf sources)) files := by
  obtain ⟨hlength, hparse⟩ := List.forall₂_iff_zip.1 (parseAll_eq_ok.1 hfiles)
  refine List.forall₂_iff_zip.2 ⟨hlength, ?_⟩
  intro ⟨s, b⟩ f hmem
  have hzip := (List.of_mem_zip hmem).1
  obtain ⟨hbase, hlimit⟩ := Positions.bounds_of_mem_zip hfit hzip
  exact h s (List.of_mem_zip hzip).1 b f hbase hlimit (hparse hmem)

end SourceFile

end UniformTree
