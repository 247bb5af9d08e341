import UniformTree.Proofs.Lowering.Attachment.Stmt
import UniformTree.Proofs.Lowering.Comments.File
import UniformTree.Proofs.Lowering.TopLevel
/-!
# Owners in files

Every node that a walk of a file visits is led back to the tree (`exists_course`). So each owner has
the doc that is due to it, and a line comment that follows it on its last row. Which of the owners
on a row gets the comment after them is up to the order in which they are lowered: it goes to the
first one that asks, whatever stands between.
-/

namespace UniformTree

open Concrete

/-- Nothing but semicolons comes after a node on its last row. -/
def Concrete.EndsRow (src : Placed) (root n : Concrete) : Prop :=
  ∀ leaf ∈ root.leaves, leaf.isCode = true → n.stop ≤ leaf.start →
    src.startRow leaf = src.endRow n → leaf.kind = ";"

namespace Lowering

open Lower

variable {src : Placed} {root clause name : Concrete} {f : File} {w : Course}

/-! ## Traced files -/

/-- **Run.** Nodes of any number of levels are led back to the tree. -/
theorem tracing_upTo (w : Course) (levels : Nat) : Tracing w levels := by
  induction levels with
  | zero =>
    constructor <;> intro c _ hheight <;> exact absurd hheight (Nat.not_le_of_lt c.height_pos)
  | succ levels ih =>
    constructor <;> intro c hc hheight
    · exact traces_expr ih ⟨hc, Nat.sub_le_of_le_add hheight⟩
    · exact traces_stmt ih ⟨hc, Nat.sub_le_of_le_add hheight⟩

/-- The package clause gets its doc, and the declarations are led back to the tree. -/
theorem traces_takenAt : (takenAt w.src w.root clause).Within w fun r =>
    (w.root.Ordered → Documents w.src w.root w.left clause r.1) ∧
      ∀ d ∈ r.2, Traced w (.decl d) := by
  have hdecls : ((w.root.parts.filter fun n => !isPackageClause n).mapM
      (decl w.src (upTo w.src w.root.height))).Within w fun ds =>
        ∀ d ∈ ds, Traced w (.decl d) := by
    apply Within.mapM
    intro c hc
    have hin := mem_children_of_filter hc
    have hheight := Nat.le_trans (Nat.sub_le c.height 1) (Nat.le_of_lt (height_lt_of_mem hin))
    exact traces_decl (tracing_upTo w w.root.height) ⟨mem_preorder_of_child hin, hheight⟩
  apply (within_takeDoc clause).bind
  intro doc
  apply hdecls.bind
  intro decls
  apply Within.pure
  intro hds hdoc
  exact ⟨hdoc, hds⟩

/-- Every node of a file is led back to the tree, on a course that leaves the comments of the
file. -/
theorem exists_course (h : Lowering.file src root = .ok f) :
    ∃ w : Course, w.src = src ∧ w.root = root ∧ w.first.Before w.last ∧
      f.comments = w.left.map (·.group) ∧ Traced w (.file f) ∧
      ∃ clause ∈ root.parts.find? isPackageClause,
        root.Ordered → Documents src root w.left clause f.doc := by
  obtain ⟨clause, name, hclause, -, hf⟩ := file_eq_ok.1 h
  let w : Course := ⟨src, root, (takenAt src root clause (CommentPool.ofTree src root)).2⟩
  have htaken : (takenAt src root clause).Within w fun r =>
      (root.Ordered → Documents src root w.left clause r.1) ∧ ∀ d ∈ r.2, Traced w (.decl d) :=
    traces_takenAt
  have hbefore := htaken.before w.first
  obtain ⟨hdoc, hdecls⟩ := htaken.holds w.first (.refl _) (.refl _)
  rw [fileAt_eq] at hf
  refine ⟨w, rfl, rfl, hbefore, ?_, ?_, clause, hclause, ?_⟩
  · rw [← hf]
    rfl
  · apply traced_of_children rfl rfl
    rw [← hf]
    simp only [Node.children, List.forall_mem_append, List.forall_mem_cons, Node.forall_mem_slot,
      forall_mem_listOf]
    exact ⟨fun g _ => traced_commentGroup g, traced_ident _, hdecls,
      fun g _ => traced_commentGroup g⟩
  · rw [← hf]
    exact hdoc

/-- What is read as an owner has the span of the node that it is read from. -/
theorem span_owner {r : Reading} {c : Concrete} {m : Node} (howner : r.isOwner = true)
    (h : Lowered src r c m) : m.span = src.span c := by
  obtain ⟨levels, -, pool, rfl⟩ := h
  suffices hyields : (r.lower src (upTo src levels) c).Yields fun m => m.span = src.span c from
    hyields pool
  cases r with
  | decl =>
    have hdecl : (Lowering.decl src (upTo src levels) c).Yields fun d => d.span = src.span c := by
      unfold Lowering.decl
      cases DeclForm.ofKind c.kind with
      | func => exact .skip fun _ => .skip fun _ => .skip fun _ => .skip fun _ => .pure rfl
      | gen tok => exact .skip fun _ => .skip fun _ => .pure rfl
      | unknown => exact .pure rfl
    exact hdecl.map fun _ h => h
  | spec tok =>
    have hspec : (Lowering.spec src (upTo src levels) tok c).Yields fun s =>
        s.span = src.span c := by
      cases tok with
      | importing => exact .skip fun _ => .skip fun _ => .pure rfl
      | constant | «variable» | type =>
        exact .skip fun _ => .skip fun _ => .skip fun _ => .skip fun _ => .pure rfl
    exact hspec.map fun _ h => h
  | structField =>
    have hfield : (Lowering.structField src (upTo src levels) c).Yields fun fd =>
        fd.span = src.span c := .skip fun _ => .skip fun _ => .skip fun _ => .pure rfl
    exact hfield.map fun _ h => h
  | element =>
    have hfield : (Lowering.element src (upTo src levels) c).Yields fun fd =>
        fd.span = src.span c := .skip fun _ => .skip fun _ => .skip fun _ => .pure rfl
    exact hfield.map fun _ h => h
  | _ => cases howner

/-! ## Docs -/

/-- Docs are attached soundly and completely. In the file of an ordered tree the doc of the package
clause, of each declaration, spec, struct field and interface element stands alone before the node
that was lowered to it and ends on the row above, and no group that is left to the file documents
one of these nodes. -/
theorem docs_attached (hroot : root.Ordered) (h : Lowering.file src root = .ok f) :
    ∃ left : List Slot, left.Sublist (CommentPool.ofTree src root).slots.toList ∧
      f.comments = left.map (·.group) ∧
      (∃ clause ∈ root.parts.find? isPackageClause, Documents src root left clause f.doc) ∧
      ∀ o ∈ (Node.file f).visited, ∀ m ∈ o.owners, ∃ r, ∃ c ∈ root.preorder,
        r.isOwner = true ∧ Lowered src r c m ∧ m.span = src.span c ∧
          Documents src root left c m.doc? := by
  obtain ⟨w, rfl, rfl, hbefore, hcomments, htraced, clause, hclause, hdoc⟩ := exists_course h
  refine ⟨w.left, hbefore.sublist_slots, hcomments, ⟨clause, hclause, hdoc hroot⟩, ?_⟩
  intro o ho m hm
  obtain ⟨r, c, hc, howner, hlowered, hattached⟩ := htraced.claimed o ho m hm
  exact ⟨r, c, hc, howner, hlowered, span_owner howner hlowered, (hattached hroot).doc⟩

/-- In the file with three comments the first one documents the package clause, and the others are
due to no other owner than the one that has them. -/
theorem docs_remarkedFile : ∃ f, Lowering.file remarkedSource remarkedFile = .ok f ∧
    f.doc = some ⟨⟨1, 5⟩, [⟨⟨1, 5⟩, "// a"⟩]⟩ ∧
    ∃ left : List Slot, f.comments = left.map (·.group) ∧
      ∀ o ∈ (Node.file f).visited, ∀ m ∈ o.owners, ∃ r, ∃ c ∈ remarkedFile.preorder,
        Lowered remarkedSource r c m ∧ Documents remarkedSource remarkedFile left c m.doc? := by
  have hroot : remarkedFile.Ordered := by decide +kernel
  refine ⟨_, rfl, by decide +kernel, ?_⟩
  obtain ⟨left, -, hcomments, -, howners⟩ := docs_attached hroot rfl
  refine ⟨left, hcomments, ?_⟩
  intro o ho m hm
  obtain ⟨r, c, hc, -, hlowered, -, hdocs⟩ := howners o ho m hm
  exact ⟨r, c, hc, hlowered, hdocs⟩

/-! ## Line comments -/

theorem semicolons_of_endsRow {left : List Slot} {c : Concrete} {s : Slot}
    (h : Trailer src root left c s) (hends : EndsRow src root c) :
    ∀ leaf ∈ root.codeBetween c s, leaf.kind = ";" := by
  intro leaf hleaf
  obtain ⟨hin, hplace⟩ := List.mem_filter.1 hleaf
  simp only [Bool.and_eq_true, decide_eq_true_eq] at hplace
  exact hends leaf hin hplace.1.1 hplace.1.2 (h.row leaf hleaf)

/-- Line comments are attached along the row of their owner. In the file of an ordered tree the line
comment of a spec, a struct field or an interface element starts after the node that was lowered to
it and on its last row, and so does all code between the two; no group that is left comes before it
there. If nothing but semicolons comes after the node on its last row, then nothing but semicolons
stands between them. An owner without a line comment has left none. -/
theorem lines_attached (hroot : root.Ordered) (h : Lowering.file src root = .ok f) :
    ∃ left : List Slot, left.Sublist (CommentPool.ofTree src root).slots.toList ∧
      f.comments = left.map (·.group) ∧
      ∀ o ∈ (Node.file f).visited, ∀ m ∈ o.owners, m.hasLine = true → ∃ r, ∃ c ∈ root.preorder,
        r.isOwner = true ∧ Lowered src r c m ∧ m.span = src.span c ∧
          Trails src root left c m.line? ∧
          (EndsRow src root c → ∀ g ∈ m.line?, ∃ s, s.group = g ∧ Trailer src root left c s ∧
            ∀ leaf ∈ root.codeBetween c s, leaf.kind = ";") := by
  obtain ⟨w, rfl, rfl, hbefore, hcomments, htraced, -⟩ := exists_course h
  refine ⟨w.left, hbefore.sublist_slots, hcomments, ?_⟩
  intro o ho m hm hline
  obtain ⟨r, c, hc, howner, hlowered, hattached⟩ := htraced.claimed o ho m hm
  have htrails := (hattached hroot).line hline
  refine ⟨r, c, hc, howner, hlowered, span_owner howner hlowered, htrails, ?_⟩
  intro hends g hg
  obtain ⟨s, hs, htrailer⟩ := htrails.sound g hg
  exact ⟨s, hs, htrailer, semicolons_of_endsRow htrailer hends⟩

/-- A struct with two fields on a row and a comment after them. -/
def crowdedFile : Concrete :=
  rule "source_file" none 0 53 [
    rule "package_clause" none 0 9 [
      token "package" 0 7, rule "package_identifier" none 8 9 []],
    rule "type_declaration" none 11 52 [
      token "type" 11 15,
      rule "type_spec" none 16 52 [
        rule "type_identifier" (some "name") 16 17 [],
        rule "struct_type" (some "type") 18 52 [
          token "struct" 18 24,
          rule "field_declaration_list" none 25 52 [
            token "\x7b" 25 26,
            rule "field_declaration" none 28 33 [
              rule "field_identifier" (some "name") 28 29 [],
              rule "type_identifier" (some "type") 30 33 []],
            token ";" 33 34,
            rule "field_declaration" none 35 40 [
              rule "field_identifier" (some "name") 35 36 [],
              rule "type_identifier" (some "type") 37 40 []],
            remark 41 50,
            token "\x7d" 51 52]]]]]

/-- The text of that file. -/
def crowdedSource : Placed :=
  ⟨.ofString "package p\n\ntype T struct \x7b\n\tx int; y int // shared\n\x7d\n", 1⟩

/-- Its comment trails both fields, so none of the two is left without one that trails it. -/
theorem lines_crowdedFile : ∃ f, Lowering.file crowdedSource crowdedFile = .ok f ∧
    f.comments = [] ∧
    ∃ left : List Slot, f.comments = left.map (·.group) ∧
      ∀ o ∈ (Node.file f).visited, ∀ m ∈ o.owners, m.hasLine = true →
        ∃ r, ∃ c ∈ crowdedFile.preorder, Lowered crowdedSource r c m ∧
          Trails crowdedSource crowdedFile left c m.line? := by
  have hroot : crowdedFile.Ordered := by decide +kernel
  refine ⟨_, rfl, by decide +kernel, ?_⟩
  obtain ⟨left, -, hcomments, howners⟩ := lines_attached hroot rfl
  refine ⟨left, hcomments, ?_⟩
  intro o ho m hm hline
  obtain ⟨r, c, hc, -, hlowered, -, htrails, -⟩ := howners o ho m hm hline
  exact ⟨r, c, hc, hlowered, htrails⟩

/-- The fields of the struct type that the first declaration of a file names. -/
def firstFields (f : File) : List Field :=
  match f.decls with
  | .gen _ _ _ (.type _ _ _ _ _ (.structType _ l) _ :: _) :: _ => l.list
  | _ => []

/-- A walk of the file comes to that struct type. -/
theorem exists_firstFields (h : firstFields f ≠ []) :
    ∃ o ∈ (Node.file f).visited, o.owners = (firstFields f).map .field := by
  unfold firstFields at h ⊢
  split at h
  · rename_i span doc tok s doc' name params isAlias t l line specs decls hdecls
    apply Exists.intro (.expr (.structType t l))
    refine ⟨?_, rfl⟩
    have htype : .expr (.structType t l) ∈
        (Node.spec (.type s doc' name params isAlias (.structType t l) line)).visited :=
      Node.mem_visited_of_child (by simp [Node.children, Node.ofSpec]) (Node.mem_visited_self _)
    have hdecl : .expr (.structType t l) ∈ (Node.decl (.gen span doc tok
        (.type s doc' name params isAlias (.structType t l) line :: specs))).visited :=
      Node.mem_visited_of_listOf (List.subset_append_right _ _) List.mem_cons_self htype
    exact Node.mem_visited_of_decl (hdecls ▸ List.mem_cons_self) hdecl
  · exact absurd rfl h

/-- A line comment may skip code: the one after two fields on a row goes to the first of them. -/
theorem not_lines_next :
    ¬ ∀ (src : Placed) (root : Concrete) (f : File), root.hasFault = false → root.Nested →
      Lowering.file src root = .ok f → ∀ o ∈ (Node.file f).visited, ∀ m ∈ o.owners,
        ∀ g ∈ m.line?, ∀ leaf ∈ root.leaves, leaf.isCode = true →
          m.span.stop ≤ src.pos leaf.start → src.pos leaf.stop ≤ g.span.start →
            leaf.kind = ";" := by
  intro h
  obtain ⟨f, hf, hfields⟩ : ∃ f, Lowering.file crowdedSource crowdedFile = .ok f ∧
      (firstFields f).map (fun fd => (fd.span, fd.comment)) =
        [(⟨29, 34⟩, some ⟨⟨42, 51⟩, [⟨⟨42, 51⟩, "// shared"⟩]⟩), (⟨36, 41⟩, none)] :=
    ⟨_, rfl, by decide +kernel⟩
  obtain ⟨x, rest, hx, hpair, -⟩ := List.map_eq_cons_iff.1 hfields
  rw [Prod.mk.injEq] at hpair
  obtain ⟨o, ho, howners⟩ := exists_firstFields (f := f) (by simp [hx])
  have hm : .field x ∈ o.owners := by simp [howners, hx]
  obtain ⟨leaf, hleaf, hcode, hafter, hbefore, hkind⟩ : ∃ leaf ∈ crowdedFile.leaves,
      leaf.isCode = true ∧ 34 ≤ crowdedSource.pos leaf.start ∧
        crowdedSource.pos leaf.stop ≤ 42 ∧ leaf.kind ≠ ";" := by decide +kernel
  apply hkind
  apply h crowdedSource crowdedFile f (by decide +kernel) (by decide +kernel) hf o ho _ hm _
    hpair.2 leaf hleaf hcode _ hbefore
  show x.span.stop ≤ _
  rw [hpair.1]
  exact hafter

end Lowering

end UniformTree
