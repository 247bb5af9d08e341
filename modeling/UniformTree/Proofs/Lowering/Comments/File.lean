import Mathlib.Data.List.Flatten
import Mathlib.Data.List.Perm.Subperm
import UniformTree.Proofs.Lowering.Comments.Stmt
/-!
# Each comment appears once

A walk of a lowered file comes to no comment twice, and to none that the concrete tree does not
have. If ranges are narrow it comes to every one of them: what lowering took out of the pool is
attached, and what remained in the pool are the comments of the file itself.
-/

namespace UniformTree

namespace Lowering

open Concrete Lower

variable {g : CommentGroup} {src : Placed} {root clause name : Concrete} {f : File}

/-- **Run.** Nodes of any number of levels conserve a group. -/
theorem conserving_upTo (g : CommentGroup) (src : Placed) (levels : Nat) :
    (upTo src levels).Conserving g := by
  refine upTo_induction (P := Below.Conserving g) ?_ (fun below hb => ?_) levels
  · exact ⟨fun c => .pure (Node.tally_badExpr _), fun c => .pure (Node.tally_badStmt _)⟩
  · exact ⟨fun c => conserves_expr hb, fun c => conserves_stmt hb⟩

/-! ## The groups of a file -/

/-- What lowering a file takes out of the pool: the doc of its package clause, and what the other
nodes at the top own. -/
def takenAt (src : Placed) (root clause : Concrete) : Lower (Option CommentGroup × List Decl) := do
  let doc ← takeDoc src clause
  let decls ← (root.parts.filter fun n => !isPackageClause n).mapM
    (decl src (upTo src root.height))
  return (doc, decls)

theorem fileAt_eq (pool : CommentPool) : (fileAt src root clause name pool).1 =
    ⟨src.span root, (takenAt src root clause pool).1.1, ident src name,
      (takenAt src root clause pool).1.2, (takenAt src root clause pool).2.remaining⟩ := rfl

theorem conserves_takenAt : (takenAt src root clause).Conserves g root.NarrowRanges 0 fun r =>
    r.1.toList.count g + Node.tallyAll g Node.decl r.2 := by
  have hb := conserving_upTo g src root.height
  have hdecls : ((root.parts.filter fun n => !isPackageClause n).mapM
      (decl src (upTo src root.height))).Conserves g root.NarrowRanges 0
        (Node.tallyAll g Node.decl) :=
    .each fun c hc => (conserves_decl hb).of_child (mem_children_of_filter hc)
  exact conserves_takeDoc.bind fun doc => hdecls.bind fun decls => .pure (by simp)

/-- What is taken is attached in the file, and what remains becomes its comments. -/
theorem count_fileAt (g : CommentGroup) (pool : CommentPool)
    (hf : (fileAt src root clause name pool).1 = f) :
    (Node.file f).tally g + f.comments.count g ≤ pool.left g ∧
      (root.NarrowRanges → (Node.file f).tally g + f.comments.count g = pool.left g) := by
  rw [fileAt_eq] at hf
  have htally : (Node.file f).tally g = (takenAt src root clause pool).1.1.toList.count g +
      Node.tallyAll g Node.decl (takenAt src root clause pool).1.2 := by
    rw [Node.tally_eq, ← hf]
    simp [Node.children, Node.owned]
  have hcomments : f.comments.count g = (takenAt src root clause pool).2.left g := by
    rw [← hf, CommentPool.left]
  rw [htally, hcomments, ← Nat.zero_add (pool.left g)]
  exact conserves_takenAt pool

/-- The groups of a file are some of those that the tree has, and all of them if ranges are
narrow. -/
theorem groups_file (h : Lowering.file src root = .ok f) :
    ((Node.file f).attached ++ f.comments).Subperm (CommentPool.ofTree src root).remaining ∧
    (root.NarrowRanges →
      ((Node.file f).attached ++ f.comments).Perm (CommentPool.ofTree src root).remaining) := by
  obtain ⟨clause, -, name, -, hf⟩ := exists_fileAt h
  constructor
  · rw [List.subperm_ext_iff]
    intro g _
    rw [List.count_append]
    exact (count_fileAt g _ hf).1
  · intro hn
    rw [List.perm_iff_count]
    intro g
    rw [List.count_append]
    exact (count_fileAt g _ hf).2 hn

/-! ## The comments of a file -/

theorem subperm_flatMap {α β : Type} {xs ys : List α} (h : xs.Subperm ys) (list : α → List β) :
    (xs.flatMap list).Subperm (ys.flatMap list) := by
  obtain ⟨zs, hperm, hsub⟩ := h
  exact ⟨zs.flatMap list, hperm.flatMap_right list, hsub.flatMap list⟩

/-- Each comment appears once. A walk of a file that was lowered from a tree visits no comment more
often than the tree has it, and no other comment. If no loop over a range has more than two targets
then it visits each comment of the tree exactly once, and that is in exactly one group: the doc or
the line comment of a declaration, a spec, a field or the package clause, or one of the file's
own. -/
theorem comments_once (h : Lowering.file src root = .ok f) :
    (Node.file f).comments.Subperm (root.comments src) ∧
    (root.NarrowRanges →
      (Node.file f).comments.Perm (root.comments src) ∧
      (((Node.file f).attached ++ f.comments).flatMap (·.list)).Perm (root.comments src) ∧
      ((Node.file f).attached ++ f.comments).Perm (CommentPool.ofTree src root).remaining) := by
  obtain ⟨hsub, hperm⟩ := groups_file h
  have hvisited := Node.comments_file f
  rw [← CommentPool.remaining_ofTree]
  refine ⟨hvisited.subperm.trans (subperm_flatMap hsub _), fun hn => ?_⟩
  have hall := (hperm hn).flatMap_right (·.list)
  exact ⟨hvisited.trans hall, hall, hperm hn⟩

/-- A comment over some bytes. -/
def remark (start stop : Nat) : Concrete := rule "comment" none start stop []

/-- A file with a comment before its package clause, one after it and one before a variable. -/
def remarkedFile : Concrete :=
  rule "source_file" none 0 35 [
    remark 0 4,
    rule "package_clause" none 5 14 [
      token "package" 5 12, rule "package_identifier" none 13 14 []],
    remark 15 19,
    remark 20 24,
    rule "var_declaration" none 25 34 [
      token "var" 25 28,
      rule "var_spec" none 29 34 [
        rule "identifier" (some "name") 29 30 [],
        rule "type_identifier" (some "type") 31 34 []]]]

/-- The text of that file. -/
def remarkedSource : Placed := ⟨.ofString "// a\npackage p // b\n// c\nvar x int\n", 1⟩

/-- Each of its three comments is visited once. -/
theorem comments_remarkedFile : ∃ f, Lowering.file remarkedSource remarkedFile = .ok f ∧
    (Node.file f).comments.Perm [⟨⟨1, 5⟩, "// a"⟩, ⟨⟨16, 20⟩, "// b"⟩, ⟨⟨21, 25⟩, "// c"⟩] := by
  have hkinds : ∀ c ∈ remarkedFile.preorder, c.kind ≠ "range_clause" := by decide
  have hnarrow : remarkedFile.NarrowRanges := fun c hc hkind => absurd hkind (hkinds c hc)
  have hcomments : remarkedFile.comments remarkedSource =
    [⟨⟨1, 5⟩, "// a"⟩, ⟨⟨16, 20⟩, "// b"⟩, ⟨⟨21, 25⟩, "// c"⟩] := by decide +kernel
  refine ⟨_, rfl, ?_⟩
  rw [← hcomments]
  exact ((comments_once rfl).2 hnarrow).1

end Lowering

end UniformTree
