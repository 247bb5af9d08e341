import UniformTree.Proofs.Lowering.Depth.Expr
/-!
# How deep declarations and statements go

Nothing that is lowered from a node has more levels than the node has reach: first one level up for
declarations and statements, then for the whole recursion and for files.
-/

namespace UniformTree

namespace Lowering

open Concrete Lower

variable {o : BuildOptions} {w : Nat} {src : Placed} {below : Below} {n : Concrete}

section Parts

variable (hw : 4 ≤ w) (hb : below.Flat o w)

include hw hb

/-! ## Declarations -/

omit hb in
theorem levels_importSpec : (importSpec src n).Yields fun s =>
    (Node.spec s).levels o ≤ n.reach w := by
  have hn := le_reach w n
  refine (Yields.trivial _).bind fun doc _ => (Yields.trivial _).bind fun line _ => .pure ?_
  refine Node.levels_le (by omega) ?_
  simp only [Node.children, Node.ofSpec, List.forall_mem_append, List.forall_mem_cons]
  refine ⟨⟨Node.levels_group (by omega), ?_⟩, ?_, Node.levels_group (by omega)⟩
  · exact Node.forall_mem_slot.2 fun id _ => by rw [Node.levels_ident]; omega
  · rw [Node.levels_basicLit]
    omega

theorem levels_valueSpec : (valueSpec src below n).Yields fun s =>
    (Node.spec s).levels o ≤ n.reach w := by
  have hn := le_reach w n
  refine (Yields.trivial _).bind fun doc _ => ?_
  refine (levels_exprIn? hw hb).bind fun type htype => ?_
  refine (levels_exprsIn hw hb).bind fun values hvalues => ?_
  refine (Yields.trivial _).bind fun line _ => .pure (Node.levels_le (by omega) ?_)
  simp only [Node.children, Node.ofSpec, List.forall_mem_append]
  refine ⟨⟨⟨⟨Node.levels_group (by omega), Node.levels_names (by omega)⟩, ?_⟩, ?_⟩,
    Node.levels_group (by omega)⟩
  · refine Node.forall_mem_slot.2 ?_
    intro t ht
    have := htype t ht
    omega
  · refine Node.levels_listOf ?_
    intro v hv
    have := hvalues v hv
    omega

theorem levels_typeSpec : (typeSpec src below n).Yields fun s =>
    (Node.spec s).levels o ≤ n.reach w := by
  have hn := le_reach w n
  refine (Yields.trivial _).bind fun doc _ => ?_
  refine (levels_paramsIn? hw hb).bind fun typeParams htypeParams => ?_
  refine (levels_exprIn hw hb).bind fun type htype => ?_
  refine (Yields.trivial _).bind fun line _ => .pure (Node.levels_le (by omega) ?_)
  simp only [Node.children, Node.ofSpec, List.forall_mem_append, List.forall_mem_cons]
  refine ⟨Node.levels_group (by omega), ?_, ?_, by omega, Node.levels_group (by omega)⟩
  · rw [Node.levels_ident]
    omega
  · refine Node.forall_mem_slot.2 ?_
    intro l hl
    have := htypeParams l hl
    omega

theorem levels_spec {tok : DeclToken} : (Lowering.spec src below tok n).Yields fun s =>
    (Node.spec s).levels o ≤ n.reach w := by
  cases tok with
  | importing => exact levels_importSpec hw
  | constant | «variable» => exact levels_valueSpec hw hb
  | type => exact levels_typeSpec hw hb

theorem levels_genDecl {tok : DeclToken} : (genDecl src below tok n).Yields fun d =>
    (Node.decl d).levels o + 1 ≤ n.reach w := by
  have hn := le_reach w n
  refine (Yields.trivial _).bind fun doc _ => ?_
  refine (Yields.mapM (Q := fun s => (Node.spec s).levels o + 4 ≤ n.reach w)
    fun c hc => ?_).bind fun specs hspecs => .pure ?_
  · have := reach_descendant (w := w) (mem_descendants_of_specNodes hc)
    exact (levels_spec hw hb).imp fun s hs => by omega
  · refine Nat.add_le_of_le_sub (by omega) (Node.levels_le (by omega) ?_)
    refine List.forall_mem_append.2 ⟨Node.levels_group (by omega), ?_⟩
    refine Node.levels_listOf ?_
    intro s hs
    have := hspecs.2 s hs
    omega

theorem levels_bodyOf : (bodyOf src below n).Yields fun x =>
    ∀ b ∈ x, (Node.block b).levels o < n.reach w := by
  refine yields_optional fun c hc => (levels_block hw hb).imp fun b hbl => ?_
  have := reach_child (w := w) hc
  omega

theorem levels_funcDecl : (funcDecl src below n).Yields fun d =>
    (Node.decl d).levels o ≤ n.reach w := by
  have hn := le_reach w n
  refine (Yields.trivial _).bind fun doc _ => ?_
  refine (levels_paramsIn? hw hb).bind fun recv hrecv => ?_
  refine (levels_signature hw hb).bind fun type htype => ?_
  refine (levels_bodyOf hw hb).bind fun body hbody => .pure (Node.levels_le (by omega) ?_)
  simp only [Node.children, Node.ofDecl, List.forall_mem_append, List.forall_mem_cons]
  refine ⟨⟨Node.levels_group (by omega), ?_⟩, ?_, by omega, Node.forall_mem_slot.2 hbody⟩
  · refine Node.forall_mem_slot.2 ?_
    intro l hl
    have := hrecv l hl
    omega
  · rw [Node.levels_ident]
    omega

theorem levels_decl : (Lowering.decl src below n).Yields fun d =>
    (Node.decl d).levels o ≤ n.reach w := by
  have hn := le_reach w n
  unfold Lowering.decl
  split
  · exact levels_funcDecl hw hb
  · exact (levels_genDecl hw hb).imp fun d hd => by omega
  · refine .pure ?_
    have : (Node.decl (.bad (src.span n))).levels o = 1 := rfl
    omega

/-! ## Statements -/

theorem levels_assignment {tok : String} : (assignment src below tok n).Yields fun s =>
    (Node.stmt s).levels o ≤ n.reach w := by
  have hn := le_reach w n
  refine (levels_exprsIn hw hb).bind fun lhs hlhs => ?_
  refine (levels_exprsIn hw hb).bind fun rhs hrhs => .pure (Node.levels_le (by omega) ?_)
  refine List.forall_mem_append.2 ⟨Node.levels_listOf fun e he => ?_,
    Node.levels_listOf fun e he => ?_⟩
  · have := hlhs e he
    omega
  · have := hrhs e he
    omega

theorem levels_receive : (receive src below n).Yields fun s =>
    (Node.stmt s).levels o ≤ n.reach w := by
  have hn := le_reach w n
  refine (levels_exprIn hw hb).bind fun right hright => ?_
  split
  · rename_i left hleft
    refine (levels_exprs hw hb (mem_children_of_child? hleft)).bind fun lhs hlhs => .pure ?_
    refine Node.levels_le (by omega) (List.forall_mem_append.2 ⟨?_, ?_⟩)
    · refine Node.levels_listOf ?_
      intro e he
      have := hlhs e he
      omega
    · exact Node.levels_listOf (List.forall_mem_singleton.2 (by omega))
  · exact .pure (Node.levels_le (by omega) (by simp [Node.children, Node.ofStmt]; omega))

theorem levels_labeled : (labeled src below n).Yields fun s =>
    (Node.stmt s).levels o ≤ n.reach w := by
  have hn := le_reach w n
  refine Yields.bind (P := fun s => (Node.stmt s).levels o < n.reach w) ?_ fun s hs => .pure ?_
  · unfold afterLabel
    split
    · rename_i c hc
      obtain ⟨d, hd, hcd⟩ := mem_preorder_of_flattened (List.mem_of_mem_head? hc)
      have hin := mem_descendants.2 ⟨d, mem_children_of_partsBeside hd, hcd⟩
      exact (levels_stmt_below hw hb c hin).imp fun s hs => by omega
    · refine .pure ?_
      have : (Node.stmt (.empty (Span.point (src.pos n.stop)) true)).levels o = 1 := rfl
      omega
  · exact Node.levels_le (by omega) (by simp [Node.children, Node.ofStmt]; omega)

theorem levels_returning : (returning src below n).Yields fun s =>
    (Node.stmt s).levels o ≤ n.reach w := by
  have hn := le_reach w n
  refine (Yields.mapM fun c hc => levels_exprs hw hb (mem_children_of_part hc)).bind
    fun results hresults => .pure (Node.levels_le (by omega) (Node.levels_listOf fun e he => ?_))
  obtain ⟨es, hes, he⟩ := List.mem_flatten.1 he
  have := hresults.2 es hes e he
  omega

theorem levels_ifElse : (ifElse src below n).Yields fun s =>
    (Node.stmt s).levels o ≤ n.reach w := by
  have hn := le_reach w n
  refine (levels_stmtIn? hw hb).bind fun init hinit => ?_
  refine (levels_exprIn hw hb).bind fun cond hcond => ?_
  refine (levels_blockIn hw hb).bind fun body hbody => ?_
  refine (levels_stmtIn? hw hb).bind fun otherwise hotherwise => .pure ?_
  refine Node.levels_le (by omega) ?_
  simp only [Node.children, Node.ofStmt, List.forall_mem_append, List.forall_mem_cons,
    Node.forall_mem_slot]
  refine ⟨fun s hs => ?_, by omega, by omega, fun s hs => ?_⟩
  · have := hinit s hs
    omega
  · have := hotherwise s hs
    omega

/-! ## Loops -/

variable {head : Concrete} (hhead : head ∈ n.children) {body : BlockStmt}
  (hbody : (Node.block body).levels o + 3 ≤ n.reach w)

include hhead hbody in
theorem levels_rangeLoop : (rangeLoop src below n head body).Yields fun s =>
    (Node.stmt s).levels o ≤ n.reach w := by
  have hn := le_reach w head
  have hh := reach_child (w := w) hhead
  refine (levels_exprsIn hw hb).bind fun targets htargets => ?_
  refine (levels_exprIn hw hb).bind fun x hx => .pure (Node.levels_le (by omega) ?_)
  have htarget (i : Nat) : ∀ e ∈ targets[i]?, (Node.expr e).levels o < n.reach w := by
    intro e he
    have := htargets e (List.mem_of_getElem? he)
    omega
  simp only [Node.children, Node.ofStmt, List.forall_mem_append, List.forall_mem_cons,
    Node.forall_mem_slot]
  exact ⟨⟨htarget 0, htarget 1⟩, by omega, by omega, by simp⟩

include hhead hbody in
theorem levels_clauseLoop : (clauseLoop src below n head body).Yields fun s =>
    (Node.stmt s).levels o ≤ n.reach w := by
  have hn := le_reach w head
  have hh := reach_child (w := w) hhead
  refine (levels_stmtIn? hw hb).bind fun init hinit => ?_
  refine (levels_exprIn? hw hb).bind fun cond hcond => ?_
  refine (levels_stmtIn? hw hb).bind fun post hpost => .pure (Node.levels_le (by omega) ?_)
  simp only [Node.children, Node.ofStmt, List.forall_mem_append, List.forall_mem_singleton,
    Node.forall_mem_slot]
  refine ⟨⟨⟨fun s hs => ?_, fun e he => ?_⟩, fun s hs => ?_⟩, by omega⟩
  · have := hinit s hs
    omega
  · have := hcond e he
    omega
  · have := hpost s hs
    omega

theorem levels_loop : (loop src below n).Yields fun s =>
    (Node.stmt s).levels o ≤ n.reach w := by
  have hn := le_reach w n
  refine (levels_blockIn hw hb).bind fun body hbody => ?_
  split
  · rename_i head hhead
    have hin := mem_children_of_partsBeside (List.mem_of_mem_head? hhead)
    split
    · exact levels_rangeLoop hw hb hin hbody
    · split
      · exact levels_clauseLoop hw hb hin hbody
      · refine (levels_expr_below hw hb head (mem_descendants_of_child hin)).bind
          fun cond hcond => .pure (Node.levels_le (by omega) ?_)
        simp [Node.children, Node.ofStmt, Node.slot]
        omega
  · refine .pure (Node.levels_le (by omega) ?_)
    simp [Node.children, Node.ofStmt, Node.slot]
    omega

/-! ## Clauses -/

theorem levels_commClause : (commClause src below n).Yields fun s =>
    (Node.stmt s).levels o ≤ n.reach w := by
  have hn := le_reach w n
  refine (levels_stmtIn? hw hb).bind fun comm hcomm => ?_
  refine (levels_flattened hw hb fun c => mem_children_of_partsBeside).bind
    fun body hbody => .pure (Node.levels_le (by omega) ?_)
  refine List.forall_mem_append.2 ⟨Node.forall_mem_slot.2 fun s hs => ?_,
    Node.levels_listOf fun s hs => ?_⟩
  · have := hcomm s hs
    omega
  · have := hbody s hs
    omega

theorem levels_caseClause : (caseClause src below n).Yields fun s =>
    (Node.stmt s).levels o ≤ n.reach w := by
  have hn := le_reach w n
  refine (Yields.mapM fun c hc =>
    levels_exprs hw hb (mem_children_of_partsIn_append hc)).bind fun cases hcases => ?_
  refine (levels_flattened hw hb fun c hc =>
    mem_children_of_filter hc).bind fun body hbody => .pure ?_
  refine Node.levels_le (by omega) (List.forall_mem_append.2 ⟨Node.levels_listOf fun e he => ?_,
    Node.levels_listOf fun s hs => ?_⟩)
  · obtain ⟨es, hes, he⟩ := List.mem_flatten.1 he
    have := hcases.2 es hes e he
    omega
  · have := hbody s hs
    omega

omit hb in
theorem levels_clauses {clause : Concrete → Lower Stmt}
    (h : ∀ c, (clause c).Yields fun s => (Node.stmt s).levels o ≤ c.reach w) :
    (clauses src clause n).Yields fun b => (Node.block b).levels o + 3 ≤ n.reach w := by
  have hn := le_reach w n
  refine (Yields.mapM (Q := fun s => (Node.stmt s).levels o < n.reach w - 3)
    fun c hc => ?_).bind fun list hlist => .pure ?_
  · have := reach_child (w := w) (mem_children_of_filter hc)
    exact (h c).imp fun s hs => by omega
  · exact Nat.add_le_of_le_sub (by omega)
      (Node.levels_le (by omega) (List.forall_mem_map.2 hlist.2))

/-- With an alias the guard takes three levels over its value; but then the node is not a leaf. -/
theorem levels_guard {value : Expr} (hvalue : (Node.expr value).levels o ≤ max 1 (n.reach w - 4)) :
    (guard src below n value).Yields fun s => (Node.stmt s).levels o < n.reach w := by
  have hn := le_reach w n
  have hassert (s : Span) : (Node.expr (.typeAssert s value none)).levels o ≤
      max 1 (n.reach w - 4) + 1 :=
    Node.levels_le (by omega) (by simp [Node.children, Node.ofExpr, Node.slot]; omega)
  unfold guard
  cases hc : n.child? "alias" with
  | some c =>
    have hcn := reach_child (w := w) (mem_children_of_child? hc)
    have hcw := le_reach w c
    refine (levels_exprs hw hb (mem_children_of_child? hc)).bind fun lhs hlhs => .pure ?_
    refine Nat.lt_of_le_sub_one (by omega) (Node.levels_le (by omega) ?_)
    refine List.forall_mem_append.2 ⟨Node.levels_listOf fun e he => ?_,
      Node.levels_listOf (List.forall_mem_singleton.2 ?_)⟩
    · have := hlhs e he
      omega
    · exact Nat.lt_of_le_of_lt (Nat.succ_le_succ (hassert _)) (by omega)
  | none =>
    refine .pure (Nat.lt_of_le_sub_one (by omega) (Node.levels_le (by omega) ?_))
    exact List.forall_mem_singleton.2 (Nat.lt_of_le_of_lt (hassert _) (by omega))

theorem levels_typeSwitch : (typeSwitch src below n).Yields fun s =>
    (Node.stmt s).levels o ≤ n.reach w := by
  have hn := le_reach w n
  refine (levels_stmtIn? hw hb).bind fun init hinit => ?_
  refine (levels_exprIn hw hb).bind fun value hvalue => ?_
  refine (levels_guard hw hb hvalue).bind fun assign hassign => ?_
  refine (levels_clauses hw fun c => levels_caseClause hw hb).bind fun body hbody => .pure ?_
  refine Node.levels_le (by omega) (List.forall_mem_append.2 ⟨Node.forall_mem_slot.2 ?_, ?_⟩)
  · intro s hs
    have := hinit s hs
    omega
  · simp
    omega

theorem levels_switch : (switch src below n).Yields fun s =>
    (Node.stmt s).levels o ≤ n.reach w := by
  have hn := le_reach w n
  refine (levels_stmtIn? hw hb).bind fun init hinit => ?_
  refine (levels_exprIn? hw hb).bind fun tag htag => ?_
  refine (levels_clauses hw fun c => levels_caseClause hw hb).bind fun body hbody => .pure ?_
  refine Node.levels_le (by omega) ?_
  simp only [Node.children, Node.ofStmt, List.forall_mem_append, List.forall_mem_singleton,
    Node.forall_mem_slot]
  refine ⟨⟨fun s hs => ?_, fun e he => ?_⟩, by omega⟩
  · have := hinit s hs
    omega
  · have := htag e he
    omega

/-- **Step.** A statement has no more levels than its node has reach, if this is so below. -/
theorem levels_stmt : (Lowering.stmt src below n).Yields fun s =>
    (Node.stmt s).levels o ≤ n.reach w := by
  have hn := le_reach w n
  unfold Lowering.stmt
  cases hf : StmtForm.ofKind n.kind with
  | unknown => exact .pure (by rw [Node.levels_badStmt]; omega)
  | empty =>
    have : (Node.stmt (.empty (src.span n) false)).levels o = 1 := rfl
    exact .pure (by omega)
  | assignment => exact levels_assignment hw hb
  | definition => exact levels_assignment hw hb
  | receive => exact levels_receive hw hb
  | labeled => exact levels_labeled hw hb
  | returning => exact levels_returning hw hb
  | ifElse => exact levels_ifElse hw hb
  | loop => exact levels_loop hw hb
  | switch => exact levels_switch hw hb
  | typeSwitch => exact levels_typeSwitch hw hb
  | expression | increment | decrement | go | defer =>
    refine (levels_firstExpr hw hb).bind fun x hx => .pure ?_
    exact Node.levels_le (by omega) (by simp [Node.children, Node.ofStmt]; omega)
  | send =>
    refine (levels_exprIn hw hb).bind fun x hx => ?_
    refine (levels_exprIn hw hb).bind fun y hy => .pure ?_
    exact Node.levels_le (by omega) (by simp [Node.children, Node.ofStmt]; omega)
  | branch tok =>
    refine .pure (Node.levels_le (by omega) (Node.forall_mem_slot.2 fun id _ => ?_))
    rw [Node.levels_ident]
    omega
  | block =>
    refine (levels_block hw hb).bind fun b hbl => .pure ?_
    exact Nat.le_trans (Nat.le_add_right _ 3) hbl
  | select =>
    refine (levels_clauses hw fun c => levels_commClause hw hb).bind fun body hbody => .pure ?_
    exact Node.levels_le (by omega) (by simp [Node.children, Node.ofStmt]; omega)
  | declaration tok =>
    have hdecl : Lowering.decl src below n = genDecl src below tok n := by
      rw [Lowering.decl, (declForm_of_stmtForm hf).1]
    simp only [hdecl]
    refine (levels_genDecl hw hb).bind fun d hd => .pure ?_
    exact Node.levels_le (by omega) (by simp [Node.children, Node.ofStmt]; omega)

end Parts

/-! ## The whole recursion -/

/-- **Run.** However many levels are lowered, nothing has more levels than its node has reach. -/
theorem flat_upTo (o : BuildOptions) (src : Placed) (hw : 4 ≤ w) (levels : Nat) :
    (upTo src levels).Flat o w := by
  refine upTo_induction (P := fun below => below.Flat o w) ?_ ?_ levels
  · constructor
    · exact fun c => .pure (Nat.le_trans (by simp) (Nat.le_trans hw (le_reach w c)))
    · exact fun c => .pure (Nat.le_trans (by simp) (Nat.le_trans hw (le_reach w c)))
  · intro below hb
    exact ⟨fun c => levels_expr hw hb, fun c => levels_stmt hw hb⟩

theorem levels_fileAt (o : BuildOptions) (src : Placed) (hw : 4 ≤ w) (root clause name : Concrete) :
    (fileAt src root clause name).Yields fun f => (Node.file f).levels o ≤ root.reach w := by
  have hn := le_reach w root
  refine (Yields.trivial _).bind fun doc _ => ?_
  refine (Yields.mapM (Q := fun d => (Node.decl d).levels o + 4 ≤ root.reach w)
    fun c hc => ?_).bind fun decls hdecls => ?_
  · have := reach_child (w := w) (mem_children_of_filter hc)
    exact (levels_decl hw (flat_upTo o src hw _)).imp fun d hd => by omega
  refine (Yields.trivial _).bind fun pool _ => .pure (Node.levels_le (by omega) ?_)
  simp only [Node.children, List.forall_mem_append, List.forall_mem_cons]
  refine ⟨Node.levels_group (by omega), ?_, ?_, ?_⟩
  · rw [Node.levels_ident]
    omega
  · refine Node.levels_listOf ?_
    intro d hd
    have := hdecls.2 d hd
    omega
  · refine Node.levels_listOf ?_
    intro g _
    have := Node.levels_commentGroup (o := o) g
    omega

/-- A file has no more levels than its root has reach. -/
theorem levels_file {src : Placed} {root : Concrete} {f : File} (h : file src root = .ok f)
    (o : BuildOptions) (hw : 4 ≤ w) : (Node.file f).levels o ≤ root.reach w := by
  obtain ⟨clause, -, name, -, rfl⟩ := exists_fileAt h
  exact levels_fileAt o src hw root clause name _

end Lowering

end UniformTree
