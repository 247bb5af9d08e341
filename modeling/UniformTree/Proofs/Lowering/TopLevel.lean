import UniformTree.Proofs.Concrete.Order
import UniformTree.Proofs.Lowering.Readings.Rows
/-!
# The top of a file

The first package clause at the top of a tree names the file, and the parts that are no package
clauses become its declarations, one for each of them and in their order. Nothing asks where the
clause stands or whether there are more of them: a second clause is passed over, and a late one
comes out first.
-/

namespace UniformTree

open Concrete

/-- The parts of a tree that become declarations. -/
def Concrete.declNodes (root : Concrete) : List Concrete :=
  root.parts.filter fun n => !Lowering.isPackageClause n

namespace Lowering

open Lower

variable {src : Placed} {root clause name : Concrete} {f : File} {levels : Nat}

/-- A file is lowered by way of its first package clause and the first part of it. -/
theorem file_eq_ok : file src root = .ok f ↔ ∃ clause name,
    root.parts.find? isPackageClause = some clause ∧ clause.parts.head? = some name ∧
      (fileAt src root clause name (CommentPool.ofTree src root)).1 = f := by
  unfold file
  cases hclause : root.parts.find? isPackageClause with
  | none => simp
  | some clause =>
    cases hname : clause.parts.head? with
    | none => simp [hname]
    | some name => simp [hname]

/-- There is no file only where there is no package clause or no name in the first one. -/
theorem file_eq_error : (∃ fault, file src root = .error fault) ↔
    ∀ clause ∈ root.parts.find? isPackageClause, clause.parts.head? = none := by
  unfold file
  cases hclause : root.parts.find? isPackageClause with
  | none => simp
  | some clause =>
    cases hname : clause.parts.head? with
    | none => simp only [hname, Except.error.injEq, exists_eq', Option.mem_some, forall_eq']
    | some name => simp only [hname, reduceCtorEq, exists_false, Option.mem_some, forall_eq']

/-- The declarations of a file are those of its other parts. -/
theorem each_decl (pool : CommentPool) (hf : (fileAt src root clause name pool).1 = f) :
    Each src .decl .decl root.declNodes f.decls := by
  have hyields : (root.declNodes.mapM (decl src (upTo src root.height))).Yields
      (Each src .decl .decl root.declNodes) := by
    apply Yields.forall₂
    intro c hc
    apply yields_made (r := .decl) rfl
    have hlt := height_lt_of_mem (mem_children_of_filter hc)
    exact Nat.le_trans (Reading.levelsBelow_le _ c) (Nat.le_of_lt hlt)
  rw [← hf]
  exact hyields _

/-- The package clause and the other parts make up all parts in their order exactly if there is one
clause and it stands first. -/
theorem parts_eq_cons (hclause : isPackageClause clause = true) :
    root.parts = clause :: root.declNodes ↔
      root.parts.head? = some clause ∧ (root.parts.filter isPackageClause).length = 1 := by
  unfold declNodes
  constructor
  · intro h
    constructor
    · rw [h]
      rfl
    · rw [h, List.filter_cons_of_pos hclause, List.filter_filter]
      simp
  · rintro ⟨hhead, hone⟩
    obtain ⟨rest, hrest⟩ := List.head?_eq_some_iff.1 hhead
    rw [hrest, List.filter_cons_of_pos hclause, List.length_cons, Nat.add_eq_right,
      List.length_eq_zero_iff, List.filter_eq_nil_iff] at hone
    have hothers : rest.filter (fun n => !isPackageClause n) = rest := by
      apply List.filter_eq_self.2
      intro n hn
      simpa using hone n hn
    rw [hrest, List.filter_cons_of_neg (by simp [hclause]), hothers]

/-- The top of a file. A file names its package by the first package clause of the tree, and its
declarations are what the other parts are lowered to, one for each and in their order. These and the
clause are all parts in the order of the source exactly if there is one clause and it stands first.
A tree is rejected exactly if it has no package clause or if the first one has no name. -/
theorem topLevel_file (src : Placed) (root : Concrete) :
    (∀ f, file src root = .ok f → ∃ clause name,
      root.parts.find? isPackageClause = some clause ∧ clause.parts.head? = some name ∧
      f.name = ident src name ∧
      List.Forall₂ (fun c d => Lowered src .decl c (.decl d)) root.declNodes f.decls ∧
      (root.parts = clause :: root.declNodes ↔
        root.parts.head? = some clause ∧ (root.parts.filter isPackageClause).length = 1)) ∧
    ((∃ fault, file src root = .error fault) ↔
      ∀ clause ∈ root.parts.find? isPackageClause, clause.parts.head? = none) := by
  refine ⟨?_, file_eq_error⟩
  intro f hfile
  obtain ⟨clause, name, hclause, hname, hf⟩ := file_eq_ok.1 hfile
  refine ⟨clause, name, hclause, hname, ?_, each_decl _ hf, parts_eq_cons (List.find?_some hclause)⟩
  rw [← hf]
  rfl

/-- A file with two package clauses, each before a variable. -/
def twoPackagesFile : Concrete :=
  let clauseAt (start : Nat) : Concrete := rule "package_clause" none start (start + 9) [
    token "package" start (start + 7),
    rule "package_identifier" none (start + 8) (start + 9) []]
  let varAt (start : Nat) : Concrete := rule "var_declaration" none start (start + 9) [
    token "var" start (start + 3),
    rule "var_spec" none (start + 4) (start + 9) [
      rule "identifier" (some "name") (start + 4) (start + 5) [],
      rule "type_identifier" (some "type") (start + 6) (start + 9) []]]
  rule "source_file" none 0 43 [clauseAt 0, varAt 11, clauseAt 22, varAt 33]

/-- The text of that file. -/
def twoPackagesSource : Placed :=
  ⟨.ofString "package p\n\nvar x int\n\npackage q\n\nvar y int\n", 1⟩

/-- The file has its two variables for declarations. -/
theorem topLevel_twoPackagesFile : ∃ f, file twoPackagesSource twoPackagesFile = .ok f ∧
    f.decls.length = 2 := by
  obtain ⟨f, hf⟩ : ∃ f, file twoPackagesSource twoPackagesFile = .ok f := ⟨_, rfl⟩
  obtain ⟨clause, name, -, -, -, hdecls, -⟩ :=
    (topLevel_file twoPackagesSource twoPackagesFile).1 f hf
  have htwo : twoPackagesFile.declNodes.length = 2 := by decide
  exact ⟨f, hf, hdecls.length_eq.symm.trans htwo⟩

/-- Not every part at the top is kept: the second package clause has no place in the file. -/
theorem not_topLevel_kept :
    ¬ ∀ (src : Placed) (root : Concrete) (f : File), root.hasFault = false → root.Nested →
      file src root = .ok f → ∃ clause rest, root.parts = clause :: rest ∧
        isPackageClause clause = true ∧
        List.Forall₂ (fun c d => Lowered src .decl c (.decl d)) rest f.decls := by
  intro h
  obtain ⟨f, hf⟩ : ∃ f, file twoPackagesSource twoPackagesFile = .ok f := ⟨_, rfl⟩
  obtain ⟨clause, rest, hparts, -, hrest⟩ :=
    h twoPackagesSource twoPackagesFile f (by decide) (by decide) hf
  obtain ⟨_, _, -, -, hfile⟩ := file_eq_ok.1 hf
  have htwo : twoPackagesFile.declNodes.length = 2 := by decide
  have hfour : twoPackagesFile.parts.length = 4 := by decide
  have hkept := (each_decl _ hfile).length_eq
  have hgiven := hrest.length_eq
  rw [hparts, List.length_cons] at hfour
  omega

end Lowering

end UniformTree
