import UniformTree.Proofs.Lowering.Comments.Expr
/-!
# The comments in declarations and statements

Each group that is taken while a declaration or a statement is lowered is attached in it, with one
exception: of the targets of a loop over a range only two are kept.
-/

namespace UniformTree

namespace Lowering

open Concrete Lower

variable {g : CommentGroup} {src : Placed} {below : Below} {n : Concrete}

section Parts

variable (hb : below.Conserving g)

include hb

/-! ## Declarations -/

omit hb in
theorem conserves_importSpec {E : Prop} :
    (importSpec src n).Conserves g E 0 fun s => (Node.spec s).tally g := by
  refine conserves_takeDoc.bind fun doc => conserves_takeLine.bind fun line => .node ?_
  simp [Node.children, Node.ofSpec, Node.owned]

theorem conserves_valueSpec :
    (valueSpec src below n).Conserves g n.NarrowRanges 0 fun s => (Node.spec s).tally g := by
  refine conserves_takeDoc.bind fun doc => (conserves_exprIn? hb).bind fun type => ?_
  refine (conserves_exprsIn hb).bind fun values => conserves_takeLine.bind fun line => .node ?_
  simp [Node.children, Node.ofSpec, Node.owned]
  omega

theorem conserves_typeSpec :
    (typeSpec src below n).Conserves g n.NarrowRanges 0 fun s => (Node.spec s).tally g := by
  refine conserves_takeDoc.bind fun doc => (conserves_paramsIn? hb).bind fun typeParams => ?_
  refine (conserves_exprIn hb).bind fun type => conserves_takeLine.bind fun line => .node ?_
  simp [Node.children, Node.ofSpec, Node.owned]
  omega

theorem conserves_spec {tok : DeclToken} : (Lowering.spec src below tok n).Conserves g
    n.NarrowRanges 0 fun s => (Node.spec s).tally g := by
  cases tok with
  | importing => exact conserves_importSpec
  | constant | «variable» => exact conserves_valueSpec hb
  | type => exact conserves_typeSpec hb

theorem conserves_genDecl {tok : DeclToken} :
    (genDecl src below tok n).Conserves g n.NarrowRanges 0 fun d => (Node.decl d).tally g := by
  refine conserves_takeDoc.bind fun doc => ?_
  refine (Conserves.each fun c hc => (conserves_spec hb).of_mem
    (mem_preorder_of_descendant (mem_descendants_of_specNodes hc))).bind fun specs => .node ?_
  simp [Node.children, Node.ofDecl, Node.owned]

theorem conserves_bodyOf : (bodyOf src below n).Conserves g n.NarrowRanges 0 fun x =>
    Node.tallyAll g Node.block x.toList := conserves_optional fun _ => conserves_block hb

theorem conserves_funcDecl :
    (funcDecl src below n).Conserves g n.NarrowRanges 0 fun d => (Node.decl d).tally g := by
  refine conserves_takeDoc.bind fun doc => (conserves_paramsIn? hb).bind fun recv => ?_
  refine (conserves_signature hb).bind fun type => (conserves_bodyOf hb).bind fun body => .node ?_
  simp [Node.children, Node.ofDecl, Node.owned]
  omega

theorem conserves_decl :
    (Lowering.decl src below n).Conserves g n.NarrowRanges 0 fun d => (Node.decl d).tally g := by
  unfold Lowering.decl
  split
  · exact conserves_funcDecl hb
  · exact conserves_genDecl hb
  · exact .node rfl

/-! ## Statements -/

theorem conserves_assignment {tok : String} : (assignment src below tok n).Conserves g
    n.NarrowRanges 0 fun s => (Node.stmt s).tally g := by
  refine (conserves_exprsIn hb).bind fun lhs => (conserves_exprsIn hb).bind fun rhs => .stmt ?_
  simp [Node.ofStmt]

theorem conserves_receive :
    (receive src below n).Conserves g n.NarrowRanges 0 fun s => (Node.stmt s).tally g := by
  refine (conserves_exprIn hb).bind fun right => ?_
  split
  · rename_i left hleft
    have hin := mem_preorder_of_child (mem_children_of_child? hleft)
    refine (conserves_exprs hb hin).bind fun lhs => .stmt ?_
    simp [Node.ofStmt]
    omega
  · refine .stmt ?_
    simp [Node.ofStmt]

theorem conserves_labeled :
    (labeled src below n).Conserves g n.NarrowRanges 0 fun s => (Node.stmt s).tally g := by
  have hafter : (afterLabel src below n).Conserves g n.NarrowRanges 0 fun s =>
      (Node.stmt s).tally g := by
    unfold afterLabel
    split
    · rename_i c hc
      obtain ⟨d, hd, hcd⟩ := mem_preorder_of_flattened (List.mem_of_mem_head? hc)
      exact (hb.stmt c).of_mem (mem_preorder_trans hcd
        (mem_preorder_of_child (mem_children_of_partsBeside hd)))
    · exact .stmt rfl
  refine hafter.bind fun s => .stmt ?_
  simp [Node.ofStmt]

theorem conserves_returning :
    (returning src below n).Conserves g n.NarrowRanges 0 fun s => (Node.stmt s).tally g := by
  refine (Conserves.mapM fun c hc => conserves_exprs hb (mem_preorder_of_child
    (mem_children_of_part hc))).bind fun results => .stmt ?_
  simp [Node.ofStmt, Node.tallyAll_flatten]

theorem conserves_ifElse :
    (ifElse src below n).Conserves g n.NarrowRanges 0 fun s => (Node.stmt s).tally g := by
  refine (conserves_stmtIn? hb).bind fun init => (conserves_exprIn hb).bind fun cond => ?_
  refine (conserves_blockIn hb).bind fun body => (conserves_stmtIn? hb).bind fun _ => .stmt ?_
  simp [Node.ofStmt]
  omega

/-! ## Loops -/

omit hb in
/-- A range that is narrow yields at most two targets. -/
theorem length_targets {head : Concrete} (hhead : head ∈ n.children)
    (hkind : head.kind = "range_clause") : (exprsIn below head "left").Yields fun targets =>
      n.NarrowRanges → targets.length ≤ 2 := by
  unfold exprsIn
  split
  · rename_i left hleft
    refine (yields_exprs (P := fun _ => True) fun c _ => Yields.trivial _).imp
      fun targets htargets hn => ?_
    have hnarrow := hn head (mem_preorder_of_child hhead) hkind left hleft
    rw [htargets.1]
    by_cases hlist : left.kind = "expression_list"
    · simpa [hlist] using hnarrow hlist
    · simp [hlist]
  · exact .pure (by simp)

omit hb in
/-- The first two of some targets own what all of them own if there are no more. -/
theorem tally_targets (targets : List Expr) :
    Node.tallyAll g Node.expr targets[0]?.toList + Node.tallyAll g Node.expr targets[1]?.toList ≤
      Node.tallyAll g Node.expr targets ∧
    (targets.length ≤ 2 → Node.tallyAll g Node.expr targets[0]?.toList +
      Node.tallyAll g Node.expr targets[1]?.toList = Node.tallyAll g Node.expr targets) := by
  match targets with
  | [] => simp
  | [_] => simp
  | [_, _] => simp
  | _ :: _ :: _ :: _ => simp

theorem conserves_rangeLoop {head : Concrete} (hhead : head ∈ n.children)
    (hkind : head.kind = "range_clause") (body : BlockStmt) :
    (rangeLoop src below n head body).Conserves g n.NarrowRanges ((Node.block body).tally g)
      fun s => (Node.stmt s).tally g := by
  refine Conserves.seq (k := (Node.block body).tally g)
    ((conserves_exprsIn hb).of_child hhead) (length_targets hhead hkind)
    fun targets hlength => ?_
  refine ((conserves_exprIn hb).of_child hhead).bind fun x => ?_
  obtain ⟨hle, heq⟩ := tally_targets (g := g) targets
  -- a third target is dropped together with what it owns
  refine .drop ?_ fun hn => ?_
  · rw [Node.tally_stmt]
    simp [Node.ofStmt] at hle ⊢
    omega
  · have := heq (hlength hn)
    rw [Node.tally_stmt]
    simp [Node.ofStmt] at this ⊢
    omega

theorem conserves_clauseLoop {head : Concrete} (hhead : head ∈ n.children) (body : BlockStmt) :
    (clauseLoop src below n head body).Conserves g n.NarrowRanges ((Node.block body).tally g)
      fun s => (Node.stmt s).tally g := by
  refine ((conserves_stmtIn? hb).of_child hhead).bind fun init => ?_
  refine ((conserves_exprIn? hb).of_child hhead).bind fun cond => ?_
  refine ((conserves_stmtIn? hb).of_child hhead).bind fun post => .stmt ?_
  simp [Node.ofStmt]
  omega

theorem conserves_loop :
    (loop src below n).Conserves g n.NarrowRanges 0 fun s => (Node.stmt s).tally g := by
  refine (conserves_blockIn hb).bind fun body => ?_
  rw [Nat.zero_add]
  split
  · rename_i head hhead
    have hin := mem_children_of_partsBeside (List.mem_of_mem_head? hhead)
    split
    · exact conserves_rangeLoop hb hin (by simp_all) body
    · split
      · exact conserves_clauseLoop hb hin body
      · refine ((hb.expr head).of_child hin).bind fun cond => .stmt ?_
        simp [Node.ofStmt]
        omega
  · refine .stmt ?_
    simp [Node.ofStmt]

/-! ## Clauses -/

theorem conserves_commClause :
    (commClause src below n).Conserves g n.NarrowRanges 0 fun s => (Node.stmt s).tally g := by
  refine (conserves_stmtIn? hb).bind fun comm => ?_
  refine (conserves_flattened hb fun c hc =>
    mem_preorder_of_child (mem_children_of_partsBeside hc)).bind fun body => .stmt ?_
  simp [Node.ofStmt]

theorem conserves_caseClause :
    (caseClause src below n).Conserves g n.NarrowRanges 0 fun s => (Node.stmt s).tally g := by
  refine (Conserves.mapM fun c hc => conserves_exprs hb
    (mem_preorder_of_child (mem_children_of_partsIn_append hc))).bind fun cases => ?_
  refine (conserves_flattened hb fun c hc =>
    mem_preorder_of_child (mem_children_of_filter hc)).bind
      fun body => .stmt ?_
  simp [Node.ofStmt, Node.tallyAll_flatten]

omit hb in
theorem conserves_clauses {clause : Concrete → Lower Stmt}
    (h : ∀ c, (clause c).Conserves g c.NarrowRanges 0 fun s => (Node.stmt s).tally g) :
    (clauses src clause n).Conserves g n.NarrowRanges 0 fun b => (Node.block b).tally g := by
  refine (Conserves.each fun c hc => (h c).of_child
    (mem_children_of_filter hc)).bind fun list => .node ?_
  simp [Node.children, Node.ofStmt, Node.owned]

/-- The guard of a type switch owns what its value owns. -/
theorem conserves_guard (value : Expr) :
    (guard src below n value).Conserves g n.NarrowRanges ((Node.expr value).tally g)
      fun s => (Node.stmt s).tally g := by
  have hassert (s : Span) : (Node.expr (.typeAssert s value none)).tally g =
      (Node.expr value).tally g := by
    rw [Node.tally_expr]
    simp [Node.ofExpr]
  unfold guard
  cases hc : n.child? "alias" with
  | some c =>
    refine (conserves_exprs hb (mem_preorder_of_child (mem_children_of_child? hc))).bind
      fun lhs => .stmt ?_
    simp [Node.ofStmt, hassert]
    omega
  | none =>
    refine .stmt ?_
    simp [Node.ofStmt, hassert]

theorem conserves_typeSwitch :
    (typeSwitch src below n).Conserves g n.NarrowRanges 0 fun s => (Node.stmt s).tally g := by
  refine (conserves_stmtIn? hb).bind fun init => (conserves_exprIn hb).bind fun value => ?_
  refine (conserves_guard hb value).seq (Yields.trivial _) fun assign _ => ?_
  refine (conserves_clauses fun c => conserves_caseClause hb).bind fun body => .stmt ?_
  simp [Node.ofStmt]
  omega

theorem conserves_switch :
    (switch src below n).Conserves g n.NarrowRanges 0 fun s => (Node.stmt s).tally g := by
  refine (conserves_stmtIn? hb).bind fun init => (conserves_exprIn? hb).bind fun tag => ?_
  refine (conserves_clauses fun c => conserves_caseClause hb).bind fun body => .stmt ?_
  simp [Node.ofStmt]
  omega

/-- **Step.** A statement owns each group that was taken for it, if this is so below. -/
theorem conserves_stmt :
    (Lowering.stmt src below n).Conserves g n.NarrowRanges 0 fun s => (Node.stmt s).tally g := by
  unfold Lowering.stmt
  cases hf : StmtForm.ofKind n.kind with
  | unknown => exact .pure (Node.tally_badStmt _)
  | empty => exact .pure (by rw [Node.tally_stmt]; rfl)
  | assignment => exact conserves_assignment hb
  | definition => exact conserves_assignment hb
  | receive => exact conserves_receive hb
  | labeled => exact conserves_labeled hb
  | returning => exact conserves_returning hb
  | ifElse => exact conserves_ifElse hb
  | loop => exact conserves_loop hb
  | switch => exact conserves_switch hb
  | typeSwitch => exact conserves_typeSwitch hb
  | expression | increment | decrement | go | defer =>
    refine (conserves_firstExpr hb).bind fun x => .stmt ?_
    simp [Node.ofStmt]
  | send =>
    refine (conserves_exprIn hb).bind fun x => (conserves_exprIn hb).bind fun y => .stmt ?_
    simp [Node.ofStmt]
  | branch tok =>
    refine .stmt ?_
    simp [Node.ofStmt]
  | block => exact (conserves_block hb).bind fun b => .pure (Nat.zero_add _).symm
  | select =>
    refine (conserves_clauses fun c => conserves_commClause hb).bind fun body => .stmt ?_
    simp [Node.ofStmt]
  | declaration tok =>
    refine (conserves_decl hb).bind fun d => .stmt ?_
    simp [Node.ofStmt]

end Parts

end Lowering

end UniformTree
