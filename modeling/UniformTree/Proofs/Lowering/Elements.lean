import UniformTree.Proofs.Lowering.Attachment.File
/-!
# Elements of rows

The rows of nodes that a lowered file holds are those that the source wrote, element by element, and
a walk comes to each of them in the order of its row. Only a loop over a range does not keep what it
has no room for: the targets after the second one.
-/

namespace UniformTree

open Concrete

/-- Rows of a loop with no more than two targets are kept as they are. -/
theorem Reading.kept_eq_rows {r : Reading} {n : Concrete}
    (h : r.isLoop n = true → ∀ row ∈ r.rows n, row.2.length ≤ 2) : r.kept n = r.rows n := by
  unfold kept
  split
  · rename_i hloop
    have hsame : ∀ row ∈ r.rows n, (row.1, row.2.take 2) = row := fun row hrow => by
      rw [List.take_of_length_le (h hloop row hrow)]
    exact (List.map_congr_left hsame).trans (List.map_id _)
  · rfl

namespace Node

/-! ## A walk comes to the elements -/

theorem sublist_flatMap_visited (ns : List Node) : ns.Sublist (ns.flatMap visited) := by
  induction ns with
  | nil => exact .slnil
  | cons n ns ih =>
    rw [List.flatMap_cons, visited_eq, List.cons_append]
    exact (ih.trans (List.sublist_append_right _ _)).cons_cons n

theorem sublist_listOf_visited {α : Type} (role : ListRole) (f : α → Node) (xs : List α) :
    (xs.map f).Sublist ((listOf role f xs).flatMap visited) := by
  cases xs with
  | nil => exact .slnil
  | cons x xs =>
    rw [listOf, List.flatMap_singleton, visited_eq]
    · exact (sublist_flatMap_visited _).cons _
    · exact List.cons_ne_nil x xs

section Rows

variable {n : Node}

theorem sublist_of_children {ns : List Node} (h : ns.Sublist n.children) :
    [ns].flatten.Sublist n.visited := by
  rw [List.flatten_singleton, visited_eq]
  exact ((sublist_flatMap_visited ns).trans (h.flatMap visited)).cons n

theorem sublist_of_listOf {α : Type} {role : ListRole} {f : α → Node} {xs : List α}
    (h : (listOf role f xs).Sublist n.children) : [xs.map f].flatten.Sublist n.visited := by
  rw [List.flatten_singleton, visited_eq]
  exact ((sublist_listOf_visited role f xs).trans (h.flatMap visited)).cons n

theorem sublist_of_listOf_append {α β : Type} {role role' : ListRole} {f : α → Node}
    {g : β → Node} {xs : List α} {ys : List β}
    (h : (listOf role f xs ++ listOf role' g ys).Sublist n.children) :
    [xs.map f, ys.map g].flatten.Sublist n.visited := by
  have hrows := (sublist_listOf_visited role f xs).append (sublist_listOf_visited role' g ys)
  rw [← List.flatMap_append] at hrows
  rw [visited_eq]
  simpa using (hrows.trans (h.flatMap visited)).cons n

end Rows

/-- The elements of the rows of a node are visited after it, in their order. -/
theorem sublist_visited (n : Node) : n.rows.flatten.Sublist n.visited := by
  unfold rows
  split
  · exact sublist_of_listOf (List.sublist_append_right _ _)
  · exact sublist_of_children (List.sublist_cons_self _ _)
  · exact sublist_of_listOf (List.sublist_cons_self _ _)
  · exact sublist_of_listOf (List.sublist_cons_self _ _)
  · exact sublist_of_listOf_append (List.Sublist.refl _)
  · exact sublist_of_listOf (List.Sublist.refl _)
  · exact sublist_of_children (List.Sublist.refl _)
  · exact sublist_of_listOf_append (List.Sublist.refl _)
  · exact sublist_of_listOf (List.sublist_append_right _ _)
  · rename_i key value _ _ _
    apply sublist_of_children
    cases key <;> cases value <;> simp [children, ofStmt, slot]
  · exact sublist_of_children (List.Sublist.refl _)
  · exact sublist_of_listOf ((List.sublist_append_right _ _).trans (List.sublist_append_left _ _))
  · exact sublist_of_listOf (List.sublist_append_right _ _)
  · exact List.nil_sublist _

end Node

namespace Lowering

variable {src : Placed} {root : Concrete} {f : File}

/-- Elements are kept. Whatever a node is lowered to under a reading of its own, its rows match
those that the source wrote: in each as many elements, the i-th of them what the i-th node is
lowered to. A loop over a range keeps the first two of its targets, and so all of them if there are
no more. A node of a file that has rows is what some node of the tree is lowered to, and the
elements of its rows are visited in their order. -/
theorem elements_kept (src : Placed) (root : Concrete) :
    (∀ (r : Reading) (c : Concrete) (m : Node), r.isDirect c = true → Lowered src r c m →
      Match src (r.kept c) m.rows ∧
      ((r.isLoop c = true → ∀ row ∈ r.rows c, row.2.length ≤ 2) → Match src (r.rows c) m.rows)) ∧
    ∀ f, Lowering.file src root = .ok f → ∀ m ∈ (Node.file f).visited, m.rows ≠ [] →
      (∃ r, ∃ c ∈ root.preorder, r.isDirect c = true ∧ Lowered src r c m) ∧
      m.rows.flatten.Sublist m.visited := by
  constructor
  · intro r c m hdirect hlowered
    have hmatch := rows_lowered hdirect hlowered
    refine ⟨hmatch, ?_⟩
    intro hfew
    rw [← Reading.kept_eq_rows hfew]
    exact hmatch
  · intro f h m hm hrows
    obtain ⟨w, rfl, rfl, -, -, htraced, -⟩ := exists_course h
    exact ⟨htraced.sourced m hm hrows, m.sublist_visited⟩

/-- A loop over a range with three targets. -/
def threeTargetsLoop : Concrete :=
  rule "for_statement" none 23 48 [
    token "for" 23 26,
    rule "range_clause" none 27 45 [
      rule "expression_list" (some "left") 27 34 [
        rule "identifier" none 27 28 [], token "," 28 29,
        rule "identifier" none 30 31 [], token "," 31 32,
        rule "identifier" none 33 34 []],
      token ":=" 35 37, token "range" 38 43,
      rule "identifier" (some "right") 44 45 []],
    rule "block" (some "body") 46 48 [token "\x7b" 46 47, token "\x7d" 47 48]]

/-- A file with that loop in a function. -/
def threeTargetsFile : Concrete :=
  rule "source_file" none 0 51 [
    rule "package_clause" none 0 9 [
      token "package" 0 7, rule "package_identifier" none 8 9 []],
    rule "function_declaration" none 11 50 [
      token "func" 11 15,
      rule "identifier" (some "name") 16 17 [],
      rule "parameter_list" (some "parameters") 17 19 [token "(" 17 18, token ")" 18 19],
      rule "block" (some "body") 20 50 [
        token "\x7b" 20 21, threeTargetsLoop, token "\x7d" 49 50]]]

/-- The text of that file. -/
def threeTargetsSource : Placed :=
  ⟨.ofString "package p\n\nfunc f() \x7b\n\tfor a, b, c := range m \x7b\x7d\n\x7d\n", 1⟩

/-- The statements of the function that the first declaration of a file is. -/
def firstBody (f : File) : List Stmt :=
  match f.decls with
  | .func _ _ _ _ _ (some body) :: _ => body.list
  | _ => []

/-- A walk of the file comes to each of these statements. -/
theorem mem_visited_firstBody {s : Stmt} (h : s ∈ firstBody f) :
    .stmt s ∈ (Node.file f).visited := by
  unfold firstBody at h
  split at h
  · rename_i span doc recv name type body decls hdecls
    have hbody : .stmt s ∈ (Node.block body).visited :=
      Node.mem_visited_of_child (List.mem_map_of_mem h) (Node.mem_visited_self _)
    have hdecl : .stmt s ∈ (Node.decl (.func span doc recv name type (some body))).visited :=
      Node.mem_visited_of_child (by simp [Node.children, Node.ofDecl, Node.slot]) hbody
    exact Node.mem_visited_of_decl (hdecls ▸ List.mem_cons_self) hdecl
  · cases h

/-- The loop is the only statement of the function in the file. -/
theorem exists_threeTargets : ∃ f, Lowering.file threeTargetsSource threeTargetsFile = .ok f ∧
    ∃ s, .stmt s ∈ (Node.file f).visited ∧
      Lowered threeTargetsSource .stmt threeTargetsLoop (.stmt s) := by
  refine ⟨_, rfl, _, mem_visited_firstBody (List.mem_singleton_self _), 4, by decide,
    .ofTree threeTargetsSource threeTargetsFile, rfl⟩

/-- It keeps two of its targets, and a walk visits these. -/
theorem elements_threeTargetsFile : ∃ f,
    Lowering.file threeTargetsSource threeTargetsFile = .ok f ∧
    ∃ s, .stmt s ∈ (Node.file f).visited ∧
      Match threeTargetsSource (Reading.stmt.kept threeTargetsLoop) (Node.stmt s).rows ∧
      (Node.stmt s).rows.flatten.length = 2 ∧
      (Node.stmt s).rows.flatten.Sublist (Node.stmt s).visited := by
  obtain ⟨f, hf, s, hs, hlowered⟩ := exists_threeTargets
  obtain ⟨hreadings, hfiles⟩ := elements_kept threeTargetsSource threeTargetsFile
  have hmatch := (hreadings .stmt _ _ rfl hlowered).1
  obtain ⟨row, rows, hrow, hrest, hrows⟩ := List.forall₂_cons_left_iff.1 hmatch
  refine ⟨f, hf, s, hs, hmatch, ?_, (hfiles f hf _ hs (by simp [hrows])).2⟩
  have htwo : 2 = row.length := hrow.length_eq
  rw [hrows, List.forall₂_nil_left_iff.1 hrest, List.flatten_singleton, htwo]

/-- Not every element is kept: of three targets of a loop over a range one is dropped. -/
theorem not_elements_kept :
    ¬ ∀ (src : Placed) (root : Concrete) (f : File), root.hasFault = false → root.Nested →
      Lowering.file src root = .ok f → ∀ m ∈ (Node.file f).visited, ∀ r, ∀ c ∈ root.preorder,
        r.isDirect c = true → Lowered src r c m → Match src (r.rows c) m.rows := by
  intro h
  obtain ⟨f, hf, s, hs, hlowered⟩ := exists_threeTargets
  have hin : threeTargetsLoop ∈ threeTargetsFile.preorder := List.mem_of_getElem? (i := 12) rfl
  have hall := h threeTargetsSource threeTargetsFile f (by decide +kernel) (by decide +kernel) hf
    _ hs .stmt _ hin rfl hlowered
  obtain ⟨all, _, hthree, -, hrows⟩ := List.forall₂_cons_left_iff.1 hall
  obtain ⟨kept, _, htwo, -, hrows'⟩ := List.forall₂_cons_left_iff.1 (rows_lowered rfl hlowered)
  rw [hrows, List.cons.injEq] at hrows'
  have hthree : 3 = all.length := hthree.length_eq
  have htwo : 2 = kept.length := htwo.length_eq
  rw [← hrows'.1] at htwo
  omega

end Lowering

end UniformTree
