import UniformTree.Proofs.Lowering.Attachment.Expr
/-!
# Owners in declarations and statements

Whatever a declaration or a statement is lowered to is led back to the tree, and declarations and
specs get the comments that are due to them.
-/

namespace UniformTree

open Concrete

namespace Lowering

open Lower

variable {w : Course} {levels : Nat} {n c : Concrete} {f : String}

section Parts

variable (hb : Tracing w levels) (hn : w.Covers levels n)

include hb hn

/-! ## Specs -/

omit hb hn in
theorem serves_importSpec : (importSpec w.src n).Within w fun s =>
    Served w n (.spec s) := by
  apply (within_takeDoc n).bind
  intro doc
  apply (within_takeLine n).bind
  intro line
  apply Within.pure
  intro hline hdoc
  constructor
  · intro hroot
    exact ⟨hdoc hroot, fun _ => hline hroot⟩
  · simp [Node.children, Node.ofSpec, or_imp, forall_and]

theorem serves_valueSpec : (valueSpec w.src (upTo w.src levels) n).Within w fun s =>
    Served w n (.spec s) := by
  apply (within_takeDoc n).bind
  intro doc
  apply (traces_exprIn? hb hn).bind
  intro type
  apply (traces_exprsIn hb hn).bind
  intro values
  apply (within_takeLine n).bind
  intro line
  apply Within.pure
  intro hline hvalues htype hdoc
  constructor
  · intro hroot
    exact ⟨hdoc hroot, fun _ => hline hroot⟩
  · simp only [Node.children, Node.ofSpec, List.forall_mem_append, Node.forall_mem_slot,
      forall_mem_listOf]
    exact ⟨⟨⟨⟨fun g _ => traced_commentGroup g, fun id _ => traced_ident id⟩, htype⟩, hvalues⟩,
      fun g _ => traced_commentGroup g⟩

theorem serves_typeSpec : (typeSpec w.src (upTo w.src levels) n).Within w fun s =>
    Served w n (.spec s) := by
  apply (within_takeDoc n).bind
  intro doc
  apply (traces_paramsIn? hb hn).bind
  intro typeParams
  apply (traces_exprIn hb hn).bind
  intro type
  apply (within_takeLine n).bind
  intro line
  apply Within.pure
  intro hline htype htypeParams hdoc
  constructor
  · intro hroot
    exact ⟨hdoc hroot, fun _ => hline hroot⟩
  · simp only [Node.children, Node.ofSpec, List.forall_mem_append, List.forall_mem_cons,
      Node.forall_mem_slot]
    exact ⟨fun g _ => traced_commentGroup g, traced_ident _, htypeParams, htype,
      fun g _ => traced_commentGroup g⟩

theorem traces_spec {tok : DeclToken} :
    (Lowering.spec w.src (upTo w.src levels) tok n).Within w fun s => Traced w (.spec s) := by
  apply within_served (r := .spec tok) rfl hn.mem hn.height rfl rfl
  · intro s x hx
    exact List.mem_singleton.1 hx
  · cases tok with
    | importing => exact serves_importSpec
    | constant | «variable» => exact serves_valueSpec hb hn
    | type => exact serves_typeSpec hb hn

/-! ## Declarations -/

theorem serves_genDecl {tok : DeclToken} :
    (genDecl w.src (upTo w.src levels) tok n).Within w fun d => Served w n (.decl d) := by
  have hspecs : ((specNodes n).mapM (Lowering.spec w.src (upTo w.src levels) tok)).Within w
      fun specs => ∀ s ∈ specs, Traced w (.spec s) := .mapM fun _ hc =>
    traces_spec hb (hn.of_descendant (mem_descendants_of_specNodes hc))
  apply (within_takeDoc n).bind
  intro doc
  apply hspecs.bind
  intro specs
  apply Within.pure
  intro hspecs hdoc
  constructor
  · intro hroot
    exact ⟨hdoc hroot, fun h => by cases h⟩
  · simpa [Node.children, Node.ofDecl, or_imp, forall_and] using hspecs

theorem traces_bodyOf : (bodyOf w.src (upTo w.src levels) n).Within w fun x =>
    ∀ b ∈ x, Traced w (.block b) := by
  have hblock := traces_blockIn hb hn (f := "body")
  unfold blockIn at hblock
  unfold bodyOf
  cases hc : n.child? "body" with
  | some c =>
    rw [hc] at hblock
    apply hblock.map
    intro b hb x hx
    cases hx
    exact hb
  | none => exact .pure (by simp)

theorem serves_funcDecl : (funcDecl w.src (upTo w.src levels) n).Within w fun d =>
    Served w n (.decl d) := by
  apply (within_takeDoc n).bind
  intro doc
  apply (traces_paramsIn? hb hn).bind
  intro recv
  apply (traces_signature hb hn).bind
  intro type
  apply (traces_bodyOf hb hn).bind
  intro body
  apply Within.pure
  intro hbody htype hrecv hdoc
  constructor
  · intro hroot
    exact ⟨hdoc hroot, fun h => by cases h⟩
  · simp only [Node.children, Node.ofDecl, List.forall_mem_append, List.forall_mem_cons,
      Node.forall_mem_slot]
    exact ⟨⟨fun g _ => traced_commentGroup g, hrecv⟩, traced_ident _, htype, hbody⟩

theorem traces_decl :
    (Lowering.decl w.src (upTo w.src levels) n).Within w fun d => Traced w (.decl d) := by
  by_cases hf : DeclForm.ofKind n.kind = .unknown
  · unfold Lowering.decl
    rw [hf]
    exact .pure (traced_of_children rfl rfl (by simp [Node.children, Node.ofDecl]))
  · apply within_served (r := .decl) rfl hn.mem hn.height rfl rfl
    · intro d x hx
      cases d with
      | bad s => cases hx
      | gen | func => exact List.mem_singleton.1 hx
    · unfold Lowering.decl
      cases hform : DeclForm.ofKind n.kind with
      | func => exact serves_funcDecl hb hn
      | gen tok => exact serves_genDecl hb hn
      | unknown => exact absurd hform hf

/-! ## Statements -/

omit hb hn in
/-- A statement owns nothing, so it is grounded if its children are traced. -/
theorem grounded_stmt {s : Stmt} (h : ∀ c ∈ Node.ofStmt s, Traced w c) : Grounded w (.stmt s) :=
  ⟨by simp [Node.owners], h⟩

theorem grounds_assignment {tok : String} :
    (assignment w.src (upTo w.src levels) tok n).Within w fun s => Grounded w (.stmt s) := by
  apply (traces_exprsIn hb hn).bind
  intro lhs
  apply (traces_exprsIn hb hn).bind
  intro rhs
  apply Within.pure
  intro hrhs hlhs
  apply grounded_stmt
  simp only [Node.ofStmt, List.forall_mem_append, forall_mem_listOf]
  exact ⟨hlhs, hrhs⟩

theorem grounds_receive :
    (receive w.src (upTo w.src levels) n).Within w fun s => Grounded w (.stmt s) := by
  apply (traces_exprIn hb hn).bind
  intro right
  cases hc : n.child? "left" with
  | some left =>
    apply (traces_exprs hb hn (mem_children_of_child? hc)).bind
    intro lhs
    apply Within.pure
    intro hlhs hright
    apply grounded_stmt
    simp only [Node.ofStmt, List.forall_mem_append, forall_mem_listOf, List.forall_mem_singleton]
    exact ⟨hlhs, hright⟩
  | none =>
    apply Within.pure
    intro hright
    apply grounded_stmt
    simpa [Node.ofStmt] using hright

theorem grounds_labeled :
    (labeled w.src (upTo w.src levels) n).Within w fun s => Grounded w (.stmt s) := by
  have hafter : (afterLabel w.src (upTo w.src levels) n).Within w fun s =>
      Traced w (.stmt s) := by
    unfold afterLabel
    split
    · rename_i c hc
      exact traces_stmt_below hb hn (mem_descendants_of_flattened
        (fun _ => mem_children_of_partsBeside) (List.mem_of_mem_head? hc))
    · exact .pure (traced_of_children rfl rfl (by simp [Node.children, Node.ofStmt]))
  apply hafter.bind
  intro s
  apply Within.pure
  intro hs
  apply grounded_stmt
  simpa [Node.ofStmt] using hs

theorem grounds_returning :
    (returning w.src (upTo w.src levels) n).Within w fun s => Grounded w (.stmt s) := by
  apply (traces_exprsEach hb hn fun _ => mem_children_of_part).bind
  intro rows
  apply Within.pure
  intro hrows
  apply grounded_stmt
  simp only [Node.ofStmt, forall_mem_listOf]
  exact List.forall_mem_flatten.2 hrows

theorem grounds_ifElse :
    (ifElse w.src (upTo w.src levels) n).Within w fun s => Grounded w (.stmt s) := by
  apply (traces_stmtIn? hb hn).bind
  intro init
  apply (traces_exprIn hb hn).bind
  intro cond
  apply (traces_blockIn hb hn).bind
  intro body
  apply (traces_stmtIn? hb hn).bind
  intro otherwise
  apply Within.pure
  intro hotherwise hbody hcond hinit
  apply grounded_stmt
  simp only [Node.ofStmt, List.forall_mem_append, List.forall_mem_cons, Node.forall_mem_slot]
  exact ⟨hinit, hcond, hbody, hotherwise⟩

/-! ## Loops -/

theorem grounds_rangeLoop {head : Concrete} (hhead : head ∈ n.children) {body : BlockStmt} :
    (rangeLoop w.src (upTo w.src levels) n head body).Within w fun s =>
      Traced w (.block body) → Grounded w (.stmt s) := by
  have hin := hn.of_descendant (mem_descendants_of_child hhead)
  apply (traces_exprsIn hb hin).bind
  intro targets
  apply (traces_exprIn hb hin).bind
  intro x
  apply Within.pure
  intro hx htargets hbody
  apply grounded_stmt
  have htarget (i : Nat) : ∀ e ∈ targets[i]?, Traced w (.expr e) :=
    fun e he => htargets e (List.mem_of_getElem? he)
  refine List.forall_mem_append.2 ⟨List.forall_mem_append.2 ⟨?_, ?_⟩, ?_⟩
  · exact Node.forall_mem_slot.2 (htarget 0)
  · exact Node.forall_mem_slot.2 (htarget 1)
  · exact List.forall_mem_cons.2 ⟨hx, List.forall_mem_singleton.2 hbody⟩

theorem grounds_clauseLoop {head : Concrete} (hhead : head ∈ n.children) {body : BlockStmt} :
    (clauseLoop w.src (upTo w.src levels) n head body).Within w fun s =>
      Traced w (.block body) → Grounded w (.stmt s) := by
  have hin := hn.of_descendant (mem_descendants_of_child hhead)
  apply (traces_stmtIn? hb hin).bind
  intro init
  apply (traces_exprIn? hb hin).bind
  intro cond
  apply (traces_stmtIn? hb hin).bind
  intro post
  apply Within.pure
  intro hpost hcond hinit hbody
  apply grounded_stmt
  simp only [Node.ofStmt, List.forall_mem_append, Node.forall_mem_slot, List.forall_mem_singleton]
  exact ⟨⟨⟨hinit, hcond⟩, hpost⟩, hbody⟩

theorem grounds_loop :
    (loop w.src (upTo w.src levels) n).Within w fun s => Grounded w (.stmt s) := by
  apply (traces_blockIn hb hn).bind
  intro body
  cases hhead : (n.partsBeside "body").head? with
  | some head =>
    have hin := mem_children_of_partsBeside (List.mem_of_mem_head? hhead)
    simp only
    split
    · exact grounds_rangeLoop hb hn hin
    · split
      · exact grounds_clauseLoop hb hn hin
      · apply (traces_expr_below hb hn (mem_descendants_of_child hin)).bind
        intro cond
        apply Within.pure
        intro hcond hbody
        apply grounded_stmt
        simp [Node.ofStmt, Node.slot, hcond, hbody]
  | none =>
    apply Within.pure
    intro hbody
    apply grounded_stmt
    simpa [Node.ofStmt, Node.slot] using hbody

/-! ## Clauses -/

theorem traces_clause (select : Bool) :
    (Reading.lowerClause w.src (upTo w.src levels) select n).Within w fun s =>
      Traced w (.stmt s) := by
  apply within_traced (r := .clause select) rfl hn.mem hn.height rfl
  cases select with
  | true =>
    apply (traces_stmtIn? hb hn).bind
    intro comm
    apply (traces_flattened hb hn fun _ => mem_children_of_partsBeside).bind
    intro body
    apply Within.pure
    intro hbody hcomm
    apply grounded_stmt
    simp only [Node.ofStmt, List.forall_mem_append, Node.forall_mem_slot, forall_mem_listOf]
    exact ⟨hcomm, hbody⟩
  | false =>
    apply (traces_exprsEach hb hn fun _ => mem_children_of_partsIn_append).bind
    intro rows
    apply (traces_flattened hb hn fun _ => mem_children_of_filter).bind
    intro body
    apply Within.pure
    intro hbody hrows
    apply grounded_stmt
    simp only [Node.ofStmt, List.forall_mem_append, forall_mem_listOf]
    exact ⟨List.forall_mem_flatten.2 hrows, hbody⟩

theorem traces_clauses (select : Bool) :
    (clauses w.src (Reading.lowerClause w.src (upTo w.src levels) select) n).Within w fun b =>
      Traced w (.block b) := by
  apply within_traced (r := .clauses select) rfl hn.mem hn.height rfl
  have hlist : ((n.parts.filter isClause).mapM
      (Reading.lowerClause w.src (upTo w.src levels) select)).Within w fun list =>
        ∀ s ∈ list, Traced w (.stmt s) := by
    apply Within.mapM
    intro c hc
    have hin := mem_descendants_of_child (mem_children_of_filter hc)
    exact traces_clause hb (hn.of_descendant hin) select
  apply hlist.bind
  intro list
  apply Within.pure
  intro hlist
  apply grounded_stmt
  exact List.forall_mem_map.2 hlist

/-- The value of a type switch and its guard. -/
theorem traces_guarded : (Reading.guarded w.src (upTo w.src levels) n).Within w fun s =>
    Traced w (.stmt s) := by
  apply within_traced (r := .guard) rfl hn.mem hn.height rfl
  apply (traces_exprIn hb hn).bind
  intro value
  have hassertion (s : Span) (hvalue : Traced w (.expr value)) :
      Traced w (.expr (.typeAssert s value none)) := by
    apply traced_of_children rfl rfl
    simpa [Node.children, Node.ofExpr, Node.slot] using hvalue
  rw [guard_eq]
  cases hc : n.child? "alias" with
  | some c =>
    apply (traces_exprs hb hn (mem_children_of_child? hc)).bind
    intro lhs
    apply Within.pure
    intro hlhs hvalue
    apply grounded_stmt
    simp only [Node.ofStmt, List.forall_mem_append, forall_mem_listOf, List.forall_mem_singleton]
    exact ⟨hlhs, hassertion _ hvalue⟩
  | none =>
    apply Within.pure
    intro hvalue
    apply grounded_stmt
    simpa [Node.ofStmt] using hassertion _ hvalue

theorem grounds_typeSwitch :
    (typeSwitch w.src (upTo w.src levels) n).Within w fun s => Grounded w (.stmt s) := by
  have hsplit : typeSwitch w.src (upTo w.src levels) n = do
      let init ← stmtIn? (upTo w.src levels) n "initializer"
      let assign ← Reading.guarded w.src (upTo w.src levels) n
      let body ← clauses w.src (Reading.lowerClause w.src (upTo w.src levels) false) n
      return .typeSwitch (w.src.span n) init assign body := rfl
  rw [hsplit]
  apply (traces_stmtIn? hb hn).bind
  intro init
  apply (traces_guarded hb hn).bind
  intro assign
  apply (traces_clauses hb hn false).bind
  intro body
  apply Within.pure
  intro hbody hassign hinit
  apply grounded_stmt
  refine List.forall_mem_append.2 ⟨Node.forall_mem_slot.2 hinit, ?_⟩
  exact List.forall_mem_cons.2 ⟨hassign, List.forall_mem_singleton.2 hbody⟩

theorem grounds_switch :
    (switch w.src (upTo w.src levels) n).Within w fun s => Grounded w (.stmt s) := by
  apply (traces_stmtIn? hb hn).bind
  intro init
  apply (traces_exprIn? hb hn).bind
  intro tag
  apply (traces_clauses hb hn false).bind
  intro body
  apply Within.pure
  intro hbody htag hinit
  apply grounded_stmt
  simp only [Node.ofStmt, List.forall_mem_append, Node.forall_mem_slot, List.forall_mem_singleton]
  exact ⟨⟨hinit, htag⟩, hbody⟩

/-- **Step.** A statement is led back to the tree, if this is so below. -/
theorem traces_stmt :
    (Lowering.stmt w.src (upTo w.src levels) n).Within w fun s => Traced w (.stmt s) := by
  apply within_traced (r := .stmt) rfl hn.mem hn.height rfl
  unfold Lowering.stmt
  cases hf : StmtForm.ofKind n.kind with
  | unknown | empty => exact .pure (grounded_stmt (by simp [Node.ofStmt]))
  | branch tok => exact .pure (grounded_stmt (by simp [Node.ofStmt]))
  | assignment | definition => exact grounds_assignment hb hn
  | receive => exact grounds_receive hb hn
  | labeled => exact grounds_labeled hb hn
  | returning => exact grounds_returning hb hn
  | ifElse => exact grounds_ifElse hb hn
  | loop => exact grounds_loop hb hn
  | switch => exact grounds_switch hb hn
  | typeSwitch => exact grounds_typeSwitch hb hn
  | expression | increment | decrement | go | defer =>
    apply (traces_firstExpr hb hn).bind
    intro x
    apply Within.pure
    intro hx
    apply grounded_stmt
    simpa [Node.ofStmt] using hx
  | send =>
    apply (traces_exprIn hb hn).bind
    intro chan
    apply (traces_exprIn hb hn).bind
    intro value
    apply Within.pure
    intro hvalue hchan
    apply grounded_stmt
    simp [Node.ofStmt, hchan, hvalue]
  | block =>
    apply (grounds_block hb hn).bind
    intro b
    exact .pure fun h => h
  | select =>
    apply (traces_clauses hb hn true).bind
    intro body
    apply Within.pure
    intro hbody
    apply grounded_stmt
    simpa [Node.ofStmt] using hbody
  | declaration tok =>
    apply (traces_decl hb hn).bind
    intro d
    apply Within.pure
    intro hd
    apply grounded_stmt
    simpa [Node.ofStmt] using hd

end Parts

end Lowering

end UniformTree
