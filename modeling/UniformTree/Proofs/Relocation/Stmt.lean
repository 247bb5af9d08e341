import UniformTree.Lowering.File
import UniformTree.Proofs.Lowering.Yields
import UniformTree.Proofs.Relocation.Expr
/-!
# Lowering files at another base

Declarations and statements are relocated like expressions, and so are files: where a relocation
takes what the nodes of a tree are given at one base to what they are given at another, it takes
the file that the tree describes at the one to the file that it describes at the other, and a fault
is the same at both (`Lowering.file_relocate`).
-/

namespace UniformTree

namespace Lowering

open Concrete Lower

variable {ρ : Relocation} {src src' : Placed} {n : Concrete} {below below' : Below} {f : String}

section Parts

variable (hρ : ρ.Fits src src' n) (hb : below.Relocates ρ src src' below')

include hρ hb

/-! ## Declarations -/

omit hb in
/-- The path of an import is a literal; where there is none it is empty over the whole import. -/
theorem relocates_importSpec (hpath : n.child? "path" = none → ρ.text (src.span n) "" = "") :
    Relocates ρ (importSpec src n) (importSpec src' n) (Spec.relocate ρ) := by
  refine (relocates_takeDoc hρ).bind fun doc => (relocates_takeLine hρ).bind fun line => .pure ?_
  have hname : ((n.child? "name").map (ident src)).map (Ident.relocate ρ) =
      (n.child? "name").map (ident src') := by
    cases hc : n.child? "name" with
    | none => rfl
    | some c => exact congrArg some (relocate_ident (hρ.of_child (mem_children_of_child? hc)))
  cases hc : n.child? "path" with
  | none => simp [Spec.relocate, BasicLit.relocate, hρ.span, hname, hpath hc]
  | some c =>
    have hc := relocate_basicLit (hρ.of_child (mem_children_of_child? hc))
    simp [Spec.relocate, hρ.span, hname, hc]

theorem relocates_valueSpec :
    Relocates ρ (valueSpec src below n) (valueSpec src' below' n) (Spec.relocate ρ) := by
  refine (relocates_takeDoc hρ).bind fun doc => (relocates_exprIn? hρ hb).bind fun type => ?_
  refine (relocates_exprsIn hρ hb).bind fun values => ?_
  refine (relocates_takeLine hρ).bind fun line => .pure ?_
  simp [Spec.relocate, hρ.span, relocate_namesIn hρ]

theorem relocates_typeSpec :
    Relocates ρ (typeSpec src below n) (typeSpec src' below' n) (Spec.relocate ρ) := by
  refine (relocates_takeDoc hρ).bind fun doc => ?_
  refine (relocates_paramsIn? hρ hb).bind fun typeParams => ?_
  refine (relocates_exprIn hρ hb).bind fun type => ?_
  refine (relocates_takeLine hρ).bind fun line => .pure ?_
  simp [Spec.relocate, hρ.span, relocate_identIn hρ]

theorem relocates_spec {tok : DeclToken} (hpath : tok = .importing → n.child? "path" = none →
    ρ.text (src.span n) "" = "") :
    Relocates ρ (Lowering.spec src below tok n) (Lowering.spec src' below' tok n)
      (Spec.relocate ρ) := by
  cases tok with
  | importing => exact relocates_importSpec hρ (hpath rfl)
  | constant | «variable» => exact relocates_valueSpec hρ hb
  | type => exact relocates_typeSpec hρ hb

omit hρ hb in
theorem kind_of_importing {kind : String} (h : DeclForm.ofKind kind = .gen .importing) :
    kind = "import_declaration" := by
  unfold DeclForm.ofKind at h
  split at h <;> first | rfl | cases h

theorem relocates_genDecl {tok : DeclToken} (htok : DeclForm.ofKind n.kind = .gen tok) :
    Relocates ρ (genDecl src below tok n) (genDecl src' below' tok n) (Decl.relocate ρ) := by
  have hspecs : Relocates ρ ((specNodes n).mapM (Lowering.spec src below tok))
      ((specNodes n).mapM (Lowering.spec src' below' tok)) (List.map (Spec.relocate ρ)) := by
    refine .mapM fun s hs => ?_
    have hin := mem_preorder_of_descendant (mem_descendants_of_specNodes hs)
    refine relocates_spec (hρ.of_mem hin) hb ?_
    rintro rfl hpath
    exact hρ.noPaths n n.mem_preorder_self (kind_of_importing htok) s hs hpath
  refine (relocates_takeDoc hρ).bind fun doc => hspecs.bind fun specs => .pure ?_
  simp [Decl.relocate, hρ.span]

theorem relocates_bodyOf : Relocates ρ (bodyOf src below n) (bodyOf src' below' n)
    (Option.map (BlockStmt.relocate ρ)) :=
  relocates_optional fun _ hc => relocates_block (hρ.of_child hc) hb

theorem relocates_funcDecl :
    Relocates ρ (funcDecl src below n) (funcDecl src' below' n) (Decl.relocate ρ) := by
  refine (relocates_takeDoc hρ).bind fun doc => (relocates_paramsIn? hρ hb).bind fun recv => ?_
  refine (relocates_signature hρ hb hρ.start).bind fun type => ?_
  refine (relocates_bodyOf hρ hb).bind fun body => .pure ?_
  simp [Decl.relocate, hρ.span, relocate_identIn hρ]

theorem relocates_decl : Relocates ρ (Lowering.decl src below n) (Lowering.decl src' below' n)
    (Decl.relocate ρ) := by
  unfold Lowering.decl
  cases hf : DeclForm.ofKind n.kind with
  | func => exact relocates_funcDecl hρ hb
  | gen tok => exact relocates_genDecl hρ hb hf
  | unknown => exact .pure (by rw [Decl.relocate, hρ.span])

/-! ## Statements -/

theorem relocates_assignment {tok : String} :
    Relocates ρ (assignment src below tok n) (assignment src' below' tok n) (Stmt.relocate ρ) := by
  refine (relocates_exprsIn hρ hb).bind fun lhs => (relocates_exprsIn hρ hb).bind fun rhs => ?_
  refine .pure ?_
  simp [Stmt.relocate, hρ.span]

theorem relocates_receive :
    Relocates ρ (receive src below n) (receive src' below' n) (Stmt.relocate ρ) := by
  refine (relocates_exprIn hρ hb).bind fun right => ?_
  cases hleft : n.child? "left" with
  | some left =>
    have hin := hρ.of_child (mem_children_of_child? hleft)
    refine (relocates_exprs hin hb).bind fun lhs => .pure ?_
    simp [Stmt.relocate, hρ.span]
  | none => exact .pure (by rw [Stmt.relocate, hρ.span])

/-- A label at the end of a block has an empty statement where its node ends. -/
theorem relocates_afterLabel :
    Relocates ρ (afterLabel src below n) (afterLabel src' below' n) (Stmt.relocate ρ) := by
  unfold afterLabel
  cases hc : (flattened (n.partsBeside "label")).head? with
  | some c =>
    obtain ⟨d, hd, hcd⟩ := mem_preorder_of_flattened (List.mem_of_mem_head? hc)
    exact hb.stmt c ((hρ.of_child (mem_children_of_partsBeside hd)).of_mem hcd)
  | none => exact .pure (by rw [Stmt.relocate, relocate_point hρ])

theorem relocates_labeled :
    Relocates ρ (labeled src below n) (labeled src' below' n) (Stmt.relocate ρ) := by
  refine (relocates_afterLabel hρ hb).bind fun s => .pure ?_
  simp [Stmt.relocate, hρ.span, relocate_identIn hρ]

theorem relocates_returning :
    Relocates ρ (returning src below n) (returning src' below' n) (Stmt.relocate ρ) := by
  refine (Relocates.mapM fun c hc =>
    relocates_exprs (hρ.of_child (mem_children_of_part hc)) hb).bind fun results => .pure ?_
  simp [Stmt.relocate, hρ.span, List.map_flatten]

theorem relocates_ifElse :
    Relocates ρ (ifElse src below n) (ifElse src' below' n) (Stmt.relocate ρ) := by
  refine (relocates_stmtIn? hρ hb).bind fun init => (relocates_exprIn hρ hb).bind fun cond => ?_
  refine (relocates_blockIn hρ hb).bind fun body => ?_
  refine (relocates_stmtIn? hρ hb).bind fun otherwise => .pure ?_
  simp [Stmt.relocate, hρ.span]

/-! ## Loops -/

theorem relocates_rangeLoop {head : Concrete} (hhead : head ∈ n.children) (body : BlockStmt) :
    Relocates ρ (rangeLoop src below n head body)
      (rangeLoop src' below' n head (body.relocate ρ)) (Stmt.relocate ρ) := by
  refine (relocates_exprsIn (hρ.of_child hhead) hb).bind fun targets => ?_
  refine (relocates_exprIn (hρ.of_child hhead) hb).bind fun x => .pure ?_
  simp [Stmt.relocate, hρ.span]

theorem relocates_clauseLoop {head : Concrete} (hhead : head ∈ n.children) (body : BlockStmt) :
    Relocates ρ (clauseLoop src below n head body)
      (clauseLoop src' below' n head (body.relocate ρ)) (Stmt.relocate ρ) := by
  refine (relocates_stmtIn? (hρ.of_child hhead) hb).bind fun init => ?_
  refine (relocates_exprIn? (hρ.of_child hhead) hb).bind fun cond => ?_
  refine (relocates_stmtIn? (hρ.of_child hhead) hb).bind fun post => .pure ?_
  simp [Stmt.relocate, hρ.span]

theorem relocates_loop :
    Relocates ρ (loop src below n) (loop src' below' n) (Stmt.relocate ρ) := by
  refine (relocates_blockIn hρ hb).bind fun body => ?_
  cases hhead : (n.partsBeside "body").head? with
  | some head =>
    have hin := mem_children_of_partsBeside (List.mem_of_mem_head? hhead)
    by_cases hrange : (head.kind == "range_clause") = true
    · simp only [if_pos hrange]
      exact relocates_rangeLoop hρ hb hin body
    · by_cases hclause : (head.kind == "for_clause") = true
      · simp only [if_neg hrange, if_pos hclause]
        exact relocates_clauseLoop hρ hb hin body
      · simp only [if_neg hrange, if_neg hclause]
        refine (hb.expr head (hρ.of_child hin)).bind fun cond => .pure ?_
        simp [Stmt.relocate, hρ.span]
  | none =>
    refine .pure ?_
    simp [Stmt.relocate, hρ.span]

/-! ## Clauses -/

theorem relocates_commClause :
    Relocates ρ (commClause src below n) (commClause src' below' n) (Stmt.relocate ρ) := by
  refine (relocates_stmtIn? hρ hb).bind fun comm => ?_
  refine (relocates_flattened hρ hb fun c hc => mem_children_of_partsBeside hc).bind
    fun body => .pure ?_
  simp [Stmt.relocate, hρ.span]

theorem relocates_caseClause :
    Relocates ρ (caseClause src below n) (caseClause src' below' n) (Stmt.relocate ρ) := by
  refine (Relocates.mapM fun c hc =>
    relocates_exprs (hρ.of_child (mem_children_of_partsIn_append hc)) hb).bind fun cases => ?_
  refine (relocates_flattened hρ hb fun c hc =>
    mem_children_of_filter hc).bind fun body => .pure ?_
  simp [Stmt.relocate, hρ.span, List.map_flatten]

omit hb in
theorem relocates_clauses {clause clause' : Concrete → Lower Stmt}
    (h : ∀ c ∈ n.children, Relocates ρ (clause c) (clause' c) (Stmt.relocate ρ)) :
    Relocates ρ (clauses src clause n) (clauses src' clause' n) (BlockStmt.relocate ρ) := by
  refine (Relocates.mapM fun c hc =>
    h c (mem_children_of_filter hc)).bind fun list => .pure ?_
  simp [BlockStmt.relocate, relocate_braceSpan hρ]

omit hb in
theorem relocate_guardStop (value : Expr) :
    ρ.pos (guardStop src n value) = guardStop src' n (value.relocate ρ) := by
  unfold guardStop
  cases hc : guardClose? n with
  | none => simp [Span.relocate]
  | some c =>
    exact (hρ.of_child (mem_children_of_guardClose? hc)).stop

theorem relocates_guard (value : Expr) :
    Relocates ρ (guard src below n value) (guard src' below' n (value.relocate ρ))
      (Stmt.relocate ρ) := by
  have hstop := relocate_guardStop hρ value
  rw [guard_eq, guard_eq]
  cases hc : n.child? "alias" with
  | some c =>
    have hin := hρ.of_child (mem_children_of_child? hc)
    refine (relocates_exprs hin hb).bind fun lhs => .pure ?_
    simp [Stmt.relocate, Expr.relocate, Span.relocate, hin.start, hstop]
  | none =>
    refine .pure ?_
    simp [Stmt.relocate, Expr.relocate, Span.relocate, hstop]

theorem relocates_typeSwitch :
    Relocates ρ (typeSwitch src below n) (typeSwitch src' below' n) (Stmt.relocate ρ) := by
  refine (relocates_stmtIn? hρ hb).bind fun init => (relocates_exprIn hρ hb).bind fun value => ?_
  refine (relocates_guard hρ hb value).bind fun assign => ?_
  refine (relocates_clauses hρ fun c hc => relocates_caseClause (hρ.of_child hc) hb).bind
    fun body => .pure ?_
  simp [Stmt.relocate, hρ.span]

theorem relocates_switch :
    Relocates ρ (switch src below n) (switch src' below' n) (Stmt.relocate ρ) := by
  refine (relocates_stmtIn? hρ hb).bind fun init => (relocates_exprIn? hρ hb).bind fun tag => ?_
  refine (relocates_clauses hρ fun c hc => relocates_caseClause (hρ.of_child hc) hb).bind
    fun body => .pure ?_
  simp [Stmt.relocate, hρ.span]

/-- **Step.** A statement is relocated at the other base, if this is so below. -/
theorem relocates_stmt : Relocates ρ (Lowering.stmt src below n) (Lowering.stmt src' below' n)
    (Stmt.relocate ρ) := by
  unfold Lowering.stmt
  cases hf : StmtForm.ofKind n.kind with
  | unknown => exact .pure (by rw [Stmt.relocate, hρ.span])
  | empty => exact .pure (by rw [Stmt.relocate, hρ.span])
  | assignment => exact relocates_assignment hρ hb
  | definition => exact relocates_assignment hρ hb
  | receive => exact relocates_receive hρ hb
  | labeled => exact relocates_labeled hρ hb
  | returning => exact relocates_returning hρ hb
  | ifElse => exact relocates_ifElse hρ hb
  | loop => exact relocates_loop hρ hb
  | switch => exact relocates_switch hρ hb
  | typeSwitch => exact relocates_typeSwitch hρ hb
  | expression | increment | decrement | go | defer =>
    refine (relocates_firstExpr hρ hb).bind fun x => .pure ?_
    simp [Stmt.relocate, hρ.span]
  | send =>
    refine (relocates_exprIn hρ hb).bind fun x => (relocates_exprIn hρ hb).bind fun y => .pure ?_
    simp [Stmt.relocate, hρ.span]
  | branch tok =>
    refine .pure ?_
    cases hl : n.parts.head? with
    | none => simp [Stmt.relocate, hρ.span]
    | some label =>
      have hin := hρ.of_child (mem_children_of_part (List.mem_of_mem_head? hl))
      simp [Stmt.relocate, hρ.span, relocate_ident hin]
  | block => exact (relocates_block hρ hb).bind fun b => .pure rfl
  | select =>
    refine (relocates_clauses hρ fun c hc => relocates_commClause (hρ.of_child hc) hb).bind
      fun body => .pure ?_
    simp [Stmt.relocate, hρ.span]
  | declaration tok =>
    refine (relocates_decl hρ hb).bind fun d => .pure ?_
    simp [Stmt.relocate, hρ.span]

end Parts

/-! ## Files -/

/-- **Run.** Nodes of any number of levels are relocated at the other base. -/
theorem relocates_upTo (ρ : Relocation) (src src' : Placed) (levels : Nat) :
    (upTo src levels).Relocates ρ src src' (upTo src' levels) := by
  induction levels with
  | zero =>
    constructor
    · exact fun c hρ => .pure (relocate_badExpr hρ)
    · exact fun c hρ => .pure (by rw [Stmt.relocate, hρ.span])
  | succ levels ih =>
    constructor
    · exact fun c hρ => relocates_expr hρ ih
    · exact fun c hρ => relocates_stmt hρ ih

variable {root clause name : Concrete}

theorem relocates_fileAt (hρ : ρ.Fits src src' root) (hclause : clause ∈ root.children)
    (hname : name ∈ clause.children) :
    Relocates ρ (fileAt src root clause name) (fileAt src' root clause name) (File.relocate ρ) := by
  have hclause := hρ.of_child hclause
  have hdecls : Relocates ρ ((root.parts.filter fun n => !isPackageClause n).mapM
      (Lowering.decl src (upTo src root.height)))
      ((root.parts.filter fun n => !isPackageClause n).mapM
        (Lowering.decl src' (upTo src' root.height))) (List.map (Decl.relocate ρ)) := by
    refine .mapM fun c hc => ?_
    have hc := hρ.of_child (mem_children_of_filter hc)
    exact relocates_decl hc (relocates_upTo ρ src src' _)
  refine (relocates_takeDoc hclause).bind fun doc => hdecls.bind fun decls => ?_
  intro pool
  have hident := relocate_ident (hclause.of_child hname)
  refine Prod.ext ?_ rfl
  show (⟨src'.span root, doc.map (CommentGroup.relocate ρ), ident src' name,
    decls.map (Decl.relocate ρ), (pool.relocate ρ).remaining⟩ : File) = _
  rw [CommentPool.remaining_relocate, ← hident, ← hρ.span]
  rfl

/-- A tree describes, at the other base, the relocated file, and a fault is the same. -/
theorem file_relocate (hρ : ρ.Fits src src' root) :
    file src' root = (file src root).map (File.relocate ρ) := by
  have hmissing (n : Concrete) : missingPackage src' n = missingPackage src n := by
    rw [missingPackage, missingPackage, hρ.source]
  unfold file
  cases hc : root.parts.find? isPackageClause with
  | none => exact congrArg Except.error (hmissing root)
  | some clause =>
    have hclause := mem_children_of_part (List.mem_of_find?_eq_some hc)
    cases hn : clause.parts.head? with
    | none =>
      simp only [hn]
      exact congrArg Except.error (hmissing clause)
    | some name =>
      have hname := mem_children_of_part (List.mem_of_mem_head? hn)
      have hrun := relocates_fileAt hρ hclause hname (CommentPool.ofTree src root)
      rw [CommentPool.relocate_ofTree hρ] at hrun
      simp only [hn]
      rw [hrun]
      rfl

end Lowering

end UniformTree
