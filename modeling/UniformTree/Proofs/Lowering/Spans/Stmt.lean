import UniformTree.Proofs.Lowering.Spans.Expr
/-!
# Where declarations and statements lie

What is lowered from a node as a declaration or as a statement is settled and sits in the span of
the node: first one level up, then for the whole recursion.
-/

namespace UniformTree

namespace Lowering

open Concrete Lower Node

variable {E : Prop} {src : Placed} {below : Below} {n : Concrete} {f : String}

section Parts

variable (hn : n.Regular E src) (hb : below.Settling E src)

include hn hb

/-! ## Declarations -/

omit hb in
theorem sits_importSpec : (importSpec src n).Yields fun s =>
    (Node.spec s).SitsIn E (src.span n) := by
  refine (Yields.trivial _).bind ?_
  intro doc _
  refine (Yields.trivial _).bind ?_
  intro line _
  refine .pure (sits_node hn rfl rfl ?_)
  simp only [Node.children, ofSpec, List.forall_mem_append, List.forall_mem_cons]
  refine ⟨⟨rests_group _ doc, rests_slot ?_⟩, ?_, rests_group _ line⟩
  · intro id hid
    obtain ⟨c, hc, rfl⟩ := Option.map_eq_some_iff.1 hid
    exact (sits_ident (hn.of_field hc)).trans (hn.inside_field hc)
  · apply SitsIn.rests
    split
    · rename_i c hc
      exact (sits_basicLit (hn.of_field hc)).trans (hn.inside_field hc)
    · exact sits_leaf hn rfl rfl rfl

theorem sits_valueSpec : (valueSpec src below n).Yields fun s =>
    (Node.spec s).SitsIn E (src.span n) := by
  refine (Yields.trivial _).bind ?_
  intro doc _
  refine (sits_exprIn? hn hb).bind ?_
  intro type htype
  refine (row_exprsIn hn hb).bind ?_
  intro values hvalues
  refine (Yields.trivial _).bind ?_
  intro line _
  refine .pure (sits_node hn rfl rfl ?_)
  simp only [Node.children, ofSpec, List.forall_mem_append]
  exact ⟨⟨⟨⟨rests_group _ doc, rests_listOf (row_namesIn hn)⟩, rests_slot htype⟩,
    rests_listOf hvalues⟩, rests_group _ line⟩

/-- A list of parameters that may be absent rests in the node. -/
theorem rests_paramsIn? : (paramsIn? src below n f).Yields fun x =>
    ∀ c ∈ slot Node.fieldList x, c.RestsIn E (src.span n) := by
  refine (sits_paramsIn? hn hb).imp ?_
  intro x hx
  apply rests_slot
  intro l hl
  obtain ⟨c, hc, hsits⟩ := hx l hl
  exact hsits.trans (hn.inside_field hc)

theorem sits_typeSpec : (typeSpec src below n).Yields fun s =>
    (Node.spec s).SitsIn E (src.span n) := by
  have hname := sits_identIn hn (f := "name")
  refine (Yields.trivial _).bind ?_
  intro doc _
  refine (rests_paramsIn? hn hb).bind ?_
  intro typeParams htypeParams
  refine (sits_exprIn hn hb).bind ?_
  intro type htype
  refine (Yields.trivial _).bind ?_
  intro line _
  refine .pure (sits_node hn rfl rfl ?_)
  simp only [Node.children, ofSpec, List.forall_mem_append, List.forall_mem_cons]
  exact ⟨rests_group _ doc, hname.rests, htypeParams, htype.rests, rests_group _ line⟩

theorem sits_spec {tok : DeclToken} : (spec src below tok n).Yields fun s =>
    (Node.spec s).SitsIn E (src.span n) := by
  cases tok with
  | importing => exact sits_importSpec hn
  | constant | «variable» => exact sits_valueSpec hn hb
  | type => exact sits_typeSpec hn hb

theorem sits_genDecl {tok : DeclToken} : (genDecl src below tok n).Yields fun d =>
    (Node.decl d).SitsIn E (src.span n) := by
  have hrow := hn.nested.inRow_specNodes
  refine (Yields.trivial _).bind ?_
  intro doc _
  refine (row_map hn hrow fun c hc => sits_spec (hn.of_mem (hrow.mem c hc)) hb).bind ?_
  intro specs hspecs
  exact .pure (sits_node hn rfl rfl
    (List.forall_mem_append.2 ⟨rests_group _ doc, rests_listOf hspecs⟩))

theorem sits_bodyOf : (bodyOf src below n).Yields fun x =>
    ∀ b ∈ x, (Node.block b).SitsIn E (src.span n) := by
  refine yields_optional fun c hc => (sits_block (hn.of_child hc) hb).imp ?_
  intro b hbl
  exact hbl.trans (hn.inside_child hc)

theorem sits_funcDecl (hkind : DeclForm.ofKind n.kind = .func) :
    (funcDecl src below n).Yields fun d => (Node.decl d).SitsIn E (src.span n) := by
  have hname := sits_identIn hn (f := "name")
  refine (Yields.trivial _).bind ?_
  intro doc _
  refine (rests_paramsIn? hn hb).bind ?_
  intro recv hrecv
  refine (sits_signature hn hb (by simp [isFunction, hkind])).bind ?_
  intro type htype
  refine (sits_bodyOf hn hb).bind ?_
  intro body hbody
  refine .pure (sits_node hn rfl rfl ?_)
  simp only [Node.children, ofDecl, List.forall_mem_append, List.forall_mem_cons]
  exact ⟨⟨rests_group _ doc, hrecv⟩, hname.rests, htype.rests, rests_slot hbody⟩

theorem sits_decl : (Lowering.decl src below n).Yields fun d =>
    (Node.decl d).SitsIn E (src.span n) := by
  unfold Lowering.decl
  split
  · exact sits_funcDecl hn hb ‹_›
  · exact sits_genDecl hn hb
  · exact .pure (sits_leaf hn rfl rfl rfl)

/-! ## Statements -/

theorem sits_assignment {tok : String} : (assignment src below tok n).Yields fun s =>
    (Node.stmt s).SitsIn E (src.span n) := by
  refine (row_exprsIn hn hb).bind ?_
  intro lhs hlhs
  refine (row_exprsIn hn hb).bind ?_
  intro rhs hrhs
  exact .pure (sits_node hn rfl rfl
    (List.forall_mem_append.2 ⟨rests_listOf hlhs, rests_listOf hrhs⟩))

theorem sits_receive : (receive src below n).Yields fun s =>
    (Node.stmt s).SitsIn E (src.span n) := by
  refine (sits_exprIn hn hb).bind ?_
  intro right hright
  split
  · rename_i left hleft
    refine (row_exprs (hn.of_field hleft) hb).bind ?_
    intro lhs hlhs
    have hlhs := hlhs.trans (hn.inside_field hleft)
    exact .pure (sits_node hn rfl rfl
      (List.forall_mem_append.2 ⟨rests_listOf hlhs, rests_listOf (row_singleton hright)⟩))
  · exact .pure (sits_node hn rfl rfl (List.forall_mem_singleton.2 hright.rests))

theorem sits_afterLabel : (afterLabel src below n).Yields fun s =>
    (Node.stmt s).SitsIn E (src.span n) := by
  have hrow := hn.nested.inRow_flattened (sublist_partsBeside n "label")
  unfold afterLabel
  split
  · rename_i c hc
    have hin := hrow.mem c (List.mem_of_mem_head? hc)
    exact (hb.stmt c (hn.of_mem hin)).imp fun s hs => hs.trans (hn.inside hin)
  · exact .pure (sits_point hn rfl hn.nested.start_le_stop (Nat.le_refl _) rfl)

theorem sits_labeled : (labeled src below n).Yields fun s =>
    (Node.stmt s).SitsIn E (src.span n) := by
  have hlabel := sits_identIn hn (f := "label")
  refine (sits_afterLabel hn hb).bind ?_
  intro stmt hstmt
  exact .pure (sits_node hn rfl rfl (by simp [Node.children, ofStmt, hlabel.rests, hstmt.rests]))

/-- Lists of expressions that stand in a row make one list. -/
theorem row_exprsEach {cs : List Concrete} (hcs : n.InRow cs) :
    (cs.mapM (exprs below)).Yields fun ess =>
      SitInRow E (src.span n) (ess.flatten.map Node.expr) := by
  refine (row_flatMap hn hcs fun c hc => row_exprs (hn.of_mem (hcs.mem c hc)) hb).imp ?_
  intro ess hess
  rw [List.map_flatten]
  exact hess

theorem sits_returning : (returning src below n).Yields fun s =>
    (Node.stmt s).SitsIn E (src.span n) := by
  refine (row_exprsEach hn hb hn.nested.inRow_parts).bind ?_
  intro results hresults
  exact .pure (sits_node hn rfl rfl (rests_listOf hresults))

theorem sits_ifElse : (ifElse src below n).Yields fun s =>
    (Node.stmt s).SitsIn E (src.span n) := by
  refine (sits_stmtIn? hn hb).bind ?_
  intro init hinit
  refine (sits_exprIn hn hb).bind ?_
  intro cond hcond
  refine (sits_blockIn hn hb).bind ?_
  intro body hbody
  refine (sits_stmtIn? hn hb).bind ?_
  intro otherwise hotherwise
  refine .pure (sits_node hn rfl rfl ?_)
  simp only [Node.children, ofStmt, List.forall_mem_append, List.forall_mem_cons]
  exact ⟨rests_slot hinit, hcond.rests, hbody.rests, rests_slot hotherwise⟩

/-! ## Loops -/

section Loops

variable {head : Concrete} (hhead : head ∈ n.children) {body : BlockStmt}
  (hbody : (Node.block body).SitsIn E (src.span n))

include hhead hbody

theorem sits_rangeLoop : (rangeLoop src below n head body).Yields fun s =>
    (Node.stmt s).SitsIn E (src.span n) := by
  have hin := hn.inside_child hhead
  refine (row_exprsIn (hn.of_child hhead) hb).bind ?_
  intro targets htargets
  refine (sits_exprIn (hn.of_child hhead) hb).bind ?_
  intro x hx
  have htarget (i : Nat) : ∀ c ∈ slot Node.expr targets[i]?, c.RestsIn E (src.span n) := by
    apply rests_slot
    intro e he
    have hsits := htargets.sits (.expr e) (List.mem_map_of_mem (List.mem_of_getElem? he))
    exact hsits.trans hin
  refine .pure (sits_node hn rfl rfl ?_)
  simp only [Node.children, ofStmt, List.forall_mem_append, List.forall_mem_cons]
  exact ⟨⟨htarget 0, htarget 1⟩, (hx.trans hin).rests, hbody.rests, by simp⟩

theorem sits_clauseLoop : (clauseLoop src below n head body).Yields fun s =>
    (Node.stmt s).SitsIn E (src.span n) := by
  have hin := hn.inside_child hhead
  refine (sits_stmtIn? (hn.of_child hhead) hb).bind ?_
  intro init hinit
  refine (sits_exprIn? (hn.of_child hhead) hb).bind ?_
  intro cond hcond
  refine (sits_stmtIn? (hn.of_child hhead) hb).bind ?_
  intro post hpost
  refine .pure (sits_node hn rfl rfl ?_)
  simp only [Node.children, ofStmt, List.forall_mem_append, List.forall_mem_singleton]
  exact ⟨⟨⟨rests_slot fun s hs => (hinit s hs).trans hin,
    rests_slot fun e he => (hcond e he).trans hin⟩,
    rests_slot fun s hs => (hpost s hs).trans hin⟩, hbody.rests⟩

end Loops

theorem sits_loop : (loop src below n).Yields fun s => (Node.stmt s).SitsIn E (src.span n) := by
  refine (sits_blockIn hn hb).bind ?_
  intro body hbody
  split
  · rename_i head hhead
    have hin := mem_children_of_partsBeside (List.mem_of_mem_head? hhead)
    split
    · exact sits_rangeLoop hn hb hin hbody
    · split
      · exact sits_clauseLoop hn hb hin hbody
      · refine (sits_child hn hb head hin).bind ?_
        intro cond hcond
        exact .pure (sits_node hn rfl rfl
          (by simp [Node.children, ofStmt, slot, hcond.rests, hbody.rests]))
  · exact .pure (sits_node hn rfl rfl (by simp [Node.children, ofStmt, slot, hbody.rests]))

/-! ## Clauses -/

theorem sits_commClause : (commClause src below n).Yields fun s =>
    (Node.stmt s).SitsIn E (src.span n) := by
  refine (sits_stmtIn? hn hb).bind ?_
  intro comm hcomm
  refine (row_flattened hn hb (sublist_partsBeside n _)).bind ?_
  intro body hbody
  exact .pure (sits_node hn rfl rfl
    (List.forall_mem_append.2 ⟨rests_slot hcomm, rests_listOf hbody⟩))

/-- The values or the types of a clause, of which it has only one sort, stand in a row. -/
theorem sits_caseClause (hclause : isClause n = true) : (caseClause src below n).Yields fun s =>
    (Node.stmt s).SitsIn E (src.span n) := by
  have hcases : n.InRow (n.partsIn "value" ++ n.partsIn "type") := by
    rcases hn.oneSort n n.mem_preorder_self hclause with hnone | hnone
    · rw [List.isEmpty_iff.1 hnone, List.nil_append]
      exact hn.nested.inRow_partsIn _
    · rw [List.isEmpty_iff.1 hnone, List.append_nil]
      exact hn.nested.inRow_partsIn _
  refine (row_exprsEach hn hb hcases).bind ?_
  intro cases hcases
  refine (row_flattened hn hb (List.filter_sublist.trans List.filter_sublist)).bind ?_
  intro body hbody
  exact .pure (sits_node hn rfl rfl
    (List.forall_mem_append.2 ⟨rests_listOf hcases, rests_listOf hbody⟩))

omit hb in
theorem rests_clauses (hkind : n.hasClauses = true) {clause : Concrete → Lower Stmt}
    (h : ∀ c, c.Regular E src → isClause c = true →
      (clause c).Yields fun s => (Node.stmt s).SitsIn E (src.span c)) :
    (clauses src clause n).Yields fun b => (Node.block b).RestsIn E (src.span n) := by
  refine (rests_braced hn (fun list => Node.block ⟨braceSpan src n, list⟩)
    (List.filter_sublist.trans List.filter_sublist) (fun hE => (hn.isShaped hE).clauses hkind) ?_
    (fun _ => rfl) fun _ => rfl).bind fun list hlist => .pure hlist
  intro c hc
  obtain ⟨hpart, hclause⟩ := List.mem_filter.1 hc
  exact h c (hn.of_child (mem_children_of_part hpart)) hclause

omit hb in
/-- The guard of a type switch ends in the switch, and after its value. -/
theorem guardStop_bounds (hkind : StmtForm.ofKind n.kind = .typeSwitch) {value : Expr}
    (hvalue : (Node.expr value).SitsIn E (src.span n))
    (hfilled : ∀ c ∈ n.child? "value", (Node.expr value).SitsIn E (src.span c)) :
    (E → value.span.stop ≤ guardStop src n value) ∧
      guardStop src n value ≤ src.pos n.stop := by
  unfold guardStop
  split
  · rename_i c hc
    have hin := mem_children_of_guardClose? hc
    have hclose := hn.inside_child hin
    refine ⟨fun hE => ?_, hclose.stop_le⟩
    obtain ⟨-, v, hv, hprecedes⟩ := (hn.isShaped hE).guard hkind
    have hbefore := (hn.of_child hin).precedes (hprecedes c hc)
    exact UInt32.le_trans (UInt32.le_trans (hfilled v hv).inside.stop_le hbefore) hclose.le
  · exact ⟨fun _ => UInt32.le_refl _, hvalue.inside.stop_le⟩

/-- The guard reaches from its alias, or else from its value, to the parenthesis after the word
`type`. -/
theorem rests_guard (hkind : StmtForm.ofKind n.kind = .typeSwitch) {value : Expr}
    (hvalue : (Node.expr value).SitsIn E (src.span n))
    (hfilled : ∀ c ∈ n.child? "value", (Node.expr value).SitsIn E (src.span c)) :
    (guard src below n value).Yields fun s => (Node.stmt s).RestsIn E (src.span n) := by
  obtain ⟨hend, hbound⟩ := guardStop_bounds hn hkind hvalue hfilled
  have hin := hvalue.inside
  have hlast (hE : E) : value.span.start ≤ guardStop src n value :=
    UInt32.le_trans hin.le (hend hE)
  have hassertion : (Node.expr (.typeAssert ⟨value.span.start, guardStop src n value⟩ value
      none)).RestsIn E ⟨value.span.start, guardStop src n value⟩ := by
    refine ⟨settled_of_rests rfl rfl ?_, fun hE _ => Span.inside_self (hlast hE)⟩
    refine List.forall_mem_cons.2 ⟨⟨hvalue.settled, fun hE _ => ?_⟩, by simp [slot]⟩
    exact ⟨UInt32.le_refl _, hin.le, hend hE⟩
  rw [guard_eq]
  split
  · rename_i c hc
    have hcin := hn.inside_field hc
    -- the alias ends before the value starts
    have hbefore (hE : E) : src.pos c.stop ≤ value.span.start := by
      obtain ⟨halias, v, hv, -⟩ := (hn.isShaped hE).guard hkind
      have hvn := hn.of_field hv
      exact UInt32.le_trans (hvn.precedes (halias c hc v hv)) (hfilled v hv).inside.start_le
    refine (row_exprs (hn.of_field hc) hb).bind ?_
    intro lhs hlhs
    refine .pure ⟨settled_of_rests rfl rfl (List.forall_mem_append.2 ⟨?_, ?_⟩), ?_⟩
    · intro d hd
      refine (rests_listOf hlhs d hd).trans fun hE => ⟨UInt32.le_refl _, hcin.le, ?_⟩
      exact UInt32.le_trans (hbefore hE) (hlast hE)
    · refine rests_listOf_singleton (hassertion.trans fun hE => ?_) rfl
      exact ⟨UInt32.le_trans hcin.le (hbefore hE), hlast hE, UInt32.le_refl _⟩
    · intro hE _
      refine ⟨hcin.start_le, ?_, hbound⟩
      exact UInt32.le_trans hcin.le (UInt32.le_trans (hbefore hE) (hlast hE))
  · refine .pure ⟨settled_of_rests rfl rfl (List.forall_mem_singleton.2 hassertion), ?_⟩
    intro hE _
    exact ⟨hin.start_le, hlast hE, hbound⟩

theorem sits_typeSwitch (hkind : StmtForm.ofKind n.kind = .typeSwitch) :
    (typeSwitch src below n).Yields fun s => (Node.stmt s).SitsIn E (src.span n) := by
  refine (sits_stmtIn? hn hb).bind ?_
  intro init hinit
  refine (sits_filled hn hb).bind ?_
  rintro value ⟨hvalue, hfilled⟩
  refine (rests_guard hn hb hkind hvalue hfilled).bind ?_
  intro assign hassign
  refine (rests_clauses hn (by simp [hasClauses, hkind])
    fun c hc => sits_caseClause hc hb).bind ?_
  intro body hbody
  refine .pure (sits_node hn rfl rfl (List.forall_mem_append.2 ⟨rests_slot hinit, ?_⟩))
  exact List.forall_mem_cons.2 ⟨hassign, List.forall_mem_singleton.2 hbody⟩

theorem sits_switch (hkind : StmtForm.ofKind n.kind = .switch) :
    (switch src below n).Yields fun s => (Node.stmt s).SitsIn E (src.span n) := by
  refine (sits_stmtIn? hn hb).bind ?_
  intro init hinit
  refine (sits_exprIn? hn hb).bind ?_
  intro tag htag
  refine (rests_clauses hn (by simp [hasClauses, hkind])
    fun c hc => sits_caseClause hc hb).bind ?_
  intro body hbody
  refine .pure (sits_node hn rfl rfl ?_)
  simp only [Node.children, ofStmt, List.forall_mem_append, List.forall_mem_singleton]
  exact ⟨⟨rests_slot hinit, rests_slot htag⟩, hbody⟩

/-- **Step.** A statement is settled and sits in its node, if this is so below. -/
theorem sits_stmt : (Lowering.stmt src below n).Yields fun s =>
    (Node.stmt s).SitsIn E (src.span n) := by
  unfold Lowering.stmt
  cases hf : StmtForm.ofKind n.kind with
  | unknown | empty => exact .pure (sits_leaf hn rfl rfl rfl)
  | assignment | definition => exact sits_assignment hn hb
  | receive => exact sits_receive hn hb
  | labeled => exact sits_labeled hn hb
  | returning => exact sits_returning hn hb
  | ifElse => exact sits_ifElse hn hb
  | loop => exact sits_loop hn hb
  | switch => exact sits_switch hn hb hf
  | typeSwitch => exact sits_typeSwitch hn hb hf
  | expression | increment | decrement | go | defer =>
    refine (sits_firstExpr hn hb).bind ?_
    intro x hx
    exact .pure (sits_node hn rfl rfl (List.forall_mem_singleton.2 hx.rests))
  | send =>
    refine (sits_exprIn hn hb).bind ?_
    intro x hx
    refine (sits_exprIn hn hb).bind ?_
    intro y hy
    exact .pure (sits_node hn rfl rfl (by simp [Node.children, ofStmt, hx.rests, hy.rests]))
  | branch tok =>
    refine .pure (sits_node hn rfl rfl (rests_slot ?_))
    intro id hid
    obtain ⟨c, hc, rfl⟩ := Option.map_eq_some_iff.1 hid
    have hin := mem_children_of_part (List.mem_of_mem_head? hc)
    exact (sits_ident (hn.of_child hin)).trans (hn.inside_child hin)
  | block => exact (sits_block hn hb).bind fun b hbl => .pure hbl
  | select =>
    refine (rests_clauses hn (by simp [hasClauses, hf]) fun c hc _ => sits_commClause hc hb).bind ?_
    intro body hbody
    exact .pure (sits_node hn rfl rfl (List.forall_mem_singleton.2 hbody))
  | declaration tok =>
    refine (sits_decl hn hb).bind ?_
    intro d hd
    exact .pure (sits_node hn rfl rfl (List.forall_mem_singleton.2 hd.rests))

end Parts

/-! ## The whole recursion -/

/-- **Run.** However many levels are lowered, everything is settled and sits in its node. -/
theorem settling_upTo (E : Prop) (src : Placed) (levels : Nat) :
    (upTo src levels).Settling E src := by
  refine upTo_induction (P := fun below => below.Settling E src) ?_ ?_ levels
  · constructor
    · intro c hc
      exact .pure (sits_bad hc)
    · intro c hc
      exact .pure (sits_leaf hc rfl rfl rfl)
  · intro below hb
    exact ⟨fun c hc => sits_expr hc hb, fun c hc => sits_stmt hc hb⟩

end Lowering

end UniformTree
