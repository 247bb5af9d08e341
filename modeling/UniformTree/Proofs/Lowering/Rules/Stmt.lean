import UniformTree.Proofs.Lowering.Rules.Expr
import UniformTree.Proofs.Tree.Grammar
/-!
# Declarations, statements and files keep the rules

The clauses of a switch and of a select are lowered by definitions of their own, which nothing else
uses, and only in the place of a body. So every node of a lowered file obeys in its place:
`Lowering.file_obeys`.
-/

namespace UniformTree

open Node

namespace Lowering

open Lower

variable {src : Placed} {below : Below} {n : Concrete}

section Parts

variable (hb : below.Proper)

/-! ## Declarations -/

theorem proper_importSpec : (importSpec src n).Yields fun s =>
    s.follows .importing = true ∧ (Node.spec s).Proper .plain := by
  refine (Yields.trivial _).bind fun doc _ => ?_
  refine (Yields.trivial _).bind fun line _ => .pure ⟨rfl, ?_⟩
  refine proper_form rfl rfl True.intro rfl ?_
  simp only [children, ofSpec, List.forall_mem_append, List.forall_mem_cons]
  exact ⟨⟨by simp, by simp⟩, by simp, by simp⟩

include hb

theorem proper_valueSpec : (valueSpec src below n).Yields fun s =>
    (s.follows .constant = true ∧ s.follows .variable = true) ∧ (Node.spec s).Proper .plain := by
  refine (Yields.trivial _).bind fun doc _ => ?_
  refine (proper_exprIn? hb).bind ?_
  intro type htype
  refine (proper_exprsIn hb).bind ?_
  intro values hvalues
  refine (Yields.trivial _).bind fun line _ => .pure ⟨⟨rfl, rfl⟩, ?_⟩
  refine proper_form rfl rfl True.intro rfl ?_
  simp only [children, ofSpec, List.forall_mem_append]
  exact ⟨⟨⟨⟨by simp, by simp⟩, forall_mem_slot.2 htype⟩, proper_listOf.2 hvalues⟩, by simp⟩

theorem proper_typeSpec : (typeSpec src below n).Yields fun s =>
    s.follows .type = true ∧ (Node.spec s).Proper .plain := by
  refine (Yields.trivial _).bind fun doc _ => ?_
  refine (proper_paramsIn? hb).bind ?_
  intro params hparams
  refine (proper_exprIn hb).bind ?_
  intro type htype
  refine (Yields.trivial _).bind fun line _ => .pure ⟨rfl, ?_⟩
  refine proper_node rfl rfl True.intro ?_
  simp only [childrenIn, List.forall_mem_append, forall_mem_allIn, List.forall_mem_cons,
    forall_mem_slot]
  exact ⟨⟨by simp, by simp⟩, hparams, htype, by simp⟩

/-- A spec is what the word of its declaration says. -/
theorem proper_spec (tok : DeclToken) : (spec src below tok n).Yields fun s =>
    s.follows tok = true ∧ (Node.spec s).Proper .plain := by
  cases tok with
  | importing => exact proper_importSpec
  | constant => exact (proper_valueSpec hb).imp fun _ h => ⟨h.1.1, h.2⟩
  | «variable» => exact (proper_valueSpec hb).imp fun _ h => ⟨h.1.2, h.2⟩
  | type => exact proper_typeSpec hb

theorem proper_genDecl (tok : DeclToken) : (genDecl src below tok n).Yields fun d =>
    (Node.decl d).Proper .plain ∧ (tok ≠ .importing → d.isLocal = true) := by
  have hspecs : ((specNodes n).mapM (spec src below tok)).Yields fun ss =>
      ss.length = (specNodes n).length ∧
        ∀ s ∈ ss, s.follows tok = true ∧ (Node.spec s).Proper .plain :=
    .mapM fun _ _ => proper_spec hb tok
  refine (Yields.trivial _).bind fun doc _ => ?_
  refine hspecs.bind ?_
  rintro specs ⟨_, hall⟩
  refine .pure ⟨?_, fun htok => bne_iff_ne.2 htok⟩
  refine proper_form rfl rfl (fun s hs => (hall s hs).1) rfl ?_
  exact List.forall_mem_append.2 ⟨by simp, proper_listOf.2 fun s hs => (hall s hs).2⟩

theorem proper_bodyOf : (bodyOf src below n).Yields fun x =>
    ∀ b ∈ x, (Node.block b).Proper .plain := yields_optional fun _ _ => proper_block hb

theorem proper_funcDecl : (funcDecl src below n).Yields fun d => (Node.decl d).Proper .plain := by
  refine (Yields.trivial _).bind fun doc _ => ?_
  refine (proper_paramsIn? hb).bind ?_
  intro recv hrecv
  refine (proper_signature hb).bind ?_
  intro type htype
  refine (proper_bodyOf hb).bind ?_
  intro body hbody
  refine .pure (proper_node rfl rfl True.intro ?_)
  simp only [childrenIn, List.forall_mem_append, forall_mem_allIn, List.forall_mem_cons,
    forall_mem_slot]
  exact ⟨by simp, hrecv, proper_ident _, htype, hbody⟩

theorem proper_decl : (Lowering.decl src below n).Yields fun d => (Node.decl d).Proper .plain := by
  unfold Lowering.decl
  split
  · exact proper_funcDecl hb
  · exact (proper_genDecl hb _).imp fun _ h => h.1
  · exact .pure (proper_form rfl rfl True.intro rfl (by simp [children, ofDecl]))

/-! ## Statements -/

theorem proper_assignment {tok : String} : (assignment src below tok n).Yields fun s =>
    (Node.stmt s).Proper .plain := by
  refine (proper_exprsIn hb).bind ?_
  intro lhs hlhs
  refine (proper_exprsIn hb).bind ?_
  intro rhs hrhs
  refine .pure (proper_form rfl rfl True.intro rfl ?_)
  exact List.forall_mem_append.2 ⟨proper_listOf.2 hlhs, proper_listOf.2 hrhs⟩

theorem proper_receive : (receive src below n).Yields fun s => (Node.stmt s).Proper .plain := by
  refine (proper_exprIn hb).bind ?_
  intro right hright
  split
  · refine (proper_exprs hb).bind ?_
    intro lhs hlhs
    refine .pure (proper_form rfl rfl True.intro rfl ?_)
    exact List.forall_mem_append.2
      ⟨proper_listOf.2 hlhs, proper_listOf.2 (List.forall_mem_singleton.2 hright)⟩
  · exact .pure (proper_form rfl rfl True.intro rfl (by simp [children, ofStmt, hright]))

/-- Where there is no statement after a label the implicit one is in its place. -/
theorem proper_afterLabel : (afterLabel src below n).Yields fun s =>
    (Node.stmt s).Proper .afterLabel := by
  unfold afterLabel
  split
  · exact (hb.stmt _).imp fun _ hs => hs.of_plain rfl
  · exact .pure (proper_form rfl rfl rfl rfl (by simp [children, ofStmt]))

theorem proper_labeled : (labeled src below n).Yields fun s => (Node.stmt s).Proper .plain := by
  refine (proper_afterLabel hb).bind ?_
  intro stmt hstmt
  refine .pure (proper_node rfl rfl True.intro ?_)
  simp only [childrenIn, List.forall_mem_cons]
  exact ⟨proper_ident _, hstmt, by simp⟩

/-- Lists of expressions make one list. -/
theorem proper_exprsEach (cs : List Concrete) : (cs.mapM (exprs below)).Yields fun ess =>
    ∀ e ∈ ess.flatten, (Node.expr e).Proper .plain := by
  have hall : (cs.mapM (exprs below)).Yields fun ess =>
      ess.length = cs.length ∧ ∀ es ∈ ess, ∀ e ∈ es, (Node.expr e).Proper .plain :=
    .mapM fun _ _ => proper_exprs hb
  refine hall.imp ?_
  rintro ess ⟨_, hess⟩ e he
  obtain ⟨es, hes, he⟩ := List.mem_flatten.1 he
  exact hess es hes e he

theorem proper_returning : (returning src below n).Yields fun s =>
    (Node.stmt s).Proper .plain := by
  refine (proper_exprsEach hb _).bind ?_
  intro results hresults
  exact .pure (proper_form rfl rfl True.intro rfl (proper_listOf.2 hresults))

theorem proper_ifElse : (ifElse src below n).Yields fun s => (Node.stmt s).Proper .plain := by
  refine (proper_stmtIn? hb).bind ?_
  intro init hinit
  refine (proper_exprIn hb).bind ?_
  intro cond hcond
  refine (proper_blockIn hb).bind ?_
  intro body hbody
  refine (proper_stmtIn? hb).bind ?_
  intro otherwise hotherwise
  refine .pure (proper_form rfl rfl True.intro rfl ?_)
  simp only [children, ofStmt, List.forall_mem_append, List.forall_mem_cons, forall_mem_slot]
  exact ⟨hinit, hcond, hbody, hotherwise⟩

/-! ## Loops -/

section Loops

variable {head : Concrete} {body : BlockStmt} (hbody : (Node.block body).Proper .plain)

include hbody

/-- The targets are given out in order, so there is no value without a key. -/
theorem proper_rangeLoop : (rangeLoop src below n head body).Yields fun s =>
    (Node.stmt s).Proper .plain := by
  refine (proper_exprsIn hb).bind ?_
  intro targets htargets
  refine (proper_exprIn hb).bind ?_
  intro x hx
  have htarget (i : Nat) : ∀ e ∈ targets[i]?, (Node.expr e).Proper .plain :=
    fun e he => htargets e (List.mem_of_getElem? he)
  have hkey : targets[1]?.isSome → targets[0]?.isSome := by cases targets <;> simp
  refine .pure (proper_form rfl rfl hkey rfl ?_)
  simp only [children, ofStmt, List.forall_mem_append, List.forall_mem_cons, forall_mem_slot]
  exact ⟨⟨htarget 0, htarget 1⟩, hx, hbody, by simp⟩

theorem proper_clauseLoop : (clauseLoop src below n head body).Yields fun s =>
    (Node.stmt s).Proper .plain := by
  refine (proper_stmtIn? hb).bind ?_
  intro init hinit
  refine (proper_exprIn? hb).bind ?_
  intro cond hcond
  refine (proper_stmtIn? hb).bind ?_
  intro post hpost
  refine .pure (proper_form rfl rfl True.intro rfl ?_)
  simp only [children, ofStmt, List.forall_mem_append, List.forall_mem_singleton, forall_mem_slot]
  exact ⟨⟨⟨hinit, hcond⟩, hpost⟩, hbody⟩

end Loops

theorem proper_loop : (loop src below n).Yields fun s => (Node.stmt s).Proper .plain := by
  refine (proper_blockIn hb).bind ?_
  intro body hbody
  split
  · split
    · exact proper_rangeLoop hb hbody
    · split
      · exact proper_clauseLoop hb hbody
      · refine (hb.expr _).bind ?_
        intro cond hcond
        exact .pure (proper_form rfl rfl True.intro rfl
          (by simp [children, ofStmt, slot, hcond, hbody]))
  · exact .pure (proper_form rfl rfl True.intro rfl (by simp [children, ofStmt, slot, hbody]))

/-! ## Clauses -/

theorem proper_commClause : (commClause src below n).Yields fun s =>
    (Node.stmt s).Proper .selectClause := by
  refine (proper_stmtIn? hb).bind ?_
  intro comm hcomm
  refine (proper_stmtEach hb _).bind ?_
  intro body hbody
  refine .pure (proper_of ⟨?_, ?_, True.intro⟩ (forall_mem_allIn.2 ?_))
  · exact iff_of_false Kind.noConfusion Place.noConfusion
  · exact iff_of_true rfl rfl
  · exact List.forall_mem_append.2 ⟨forall_mem_slot.2 hcomm, proper_listOf.2 hbody⟩

theorem proper_caseClause : (caseClause src below n).Yields fun s =>
    (Node.stmt s).Proper .switchClause := by
  refine (proper_exprsEach hb _).bind ?_
  intro cases hcases
  refine (proper_stmtEach hb _).bind ?_
  intro body hbody
  refine .pure (proper_of ⟨?_, ?_, True.intro⟩ (forall_mem_allIn.2 ?_))
  · exact iff_of_true rfl rfl
  · exact iff_of_false Kind.noConfusion Place.noConfusion
  · exact List.forall_mem_append.2 ⟨proper_listOf.2 hcases, proper_listOf.2 hbody⟩

omit hb in
/-- A body holds what its clauses are lowered to, and nothing else. -/
theorem proper_clauses {p : Place} (hp : p.isClause = false) {clause : Concrete → Lower Stmt}
    (h : ∀ c, (clause c).Yields fun s => (Node.stmt s).Proper p.inBlock) :
    (clauses src clause n).Yields fun b => (Node.block b).Proper p := by
  have hlist : ((n.parts.filter isClause).mapM clause).Yields fun ss =>
      ss.length = (n.parts.filter isClause).length ∧
        ∀ s ∈ ss, (Node.stmt s).Proper p.inBlock := .mapM fun c _ => h c
  exact hlist.bind fun _ hss => .pure (Node.proper_block hp hss.2)

/-! ## Switches -/

theorem proper_guard {value : Expr} (hvalue : (Node.expr value).Proper .plain) :
    (guard src below n value).Yields fun s => s.IsGuard ∧ (Node.stmt s).Proper .plain := by
  have hassert (s : Span) : (Node.expr (.typeAssert s value none)).Proper .plain :=
    proper_form rfl rfl True.intro rfl (by simp [children, ofExpr, slot, hvalue])
  rw [guard_eq]
  split
  · refine (proper_exprs hb).bind ?_
    intro lhs hlhs
    refine .pure ⟨.inr ⟨_, _, _, _, rfl⟩, proper_form rfl rfl True.intro rfl ?_⟩
    exact List.forall_mem_append.2
      ⟨proper_listOf.2 hlhs, proper_listOf.2 (List.forall_mem_singleton.2 (hassert _))⟩
  · refine .pure ⟨.inl ⟨_, _, _, rfl⟩, proper_form rfl rfl True.intro rfl ?_⟩
    exact List.forall_mem_singleton.2 (hassert _)

theorem proper_typeSwitch : (typeSwitch src below n).Yields fun s =>
    (Node.stmt s).Proper .plain := by
  refine (proper_stmtIn? hb).bind ?_
  intro init hinit
  refine (proper_exprIn hb).bind ?_
  intro value hvalue
  refine (proper_guard hb hvalue).bind ?_
  rintro assign ⟨hguard, hassign⟩
  refine (proper_clauses (p := .switchBody) rfl fun c => proper_caseClause hb).bind ?_
  intro body hbody
  refine .pure (proper_node rfl rfl hguard ?_)
  simp only [childrenIn, List.forall_mem_append, forall_mem_allIn, List.forall_mem_singleton,
    forall_mem_slot]
  exact ⟨⟨hinit, hassign⟩, hbody⟩

theorem proper_switch : (switch src below n).Yields fun s => (Node.stmt s).Proper .plain := by
  refine (proper_stmtIn? hb).bind ?_
  intro init hinit
  refine (proper_exprIn? hb).bind ?_
  intro tag htag
  refine (proper_clauses (p := .switchBody) rfl fun c => proper_caseClause hb).bind ?_
  intro body hbody
  refine .pure (proper_node rfl rfl True.intro ?_)
  simp only [childrenIn, List.forall_mem_append, forall_mem_allIn, List.forall_mem_singleton,
    forall_mem_slot]
  exact ⟨⟨hinit, htag⟩, hbody⟩

/-- **Step.** A statement is proper if this is so below. -/
theorem proper_stmt : (Lowering.stmt src below n).Yields fun s =>
    (Node.stmt s).Proper .plain := by
  unfold Lowering.stmt
  cases hf : StmtForm.ofKind n.kind with
  | unknown => exact .pure (proper_badStmt _)
  | empty => exact .pure (proper_form rfl rfl True.intro rfl (by simp [children, ofStmt]))
  | assignment | definition => exact proper_assignment hb
  | receive => exact proper_receive hb
  | labeled => exact proper_labeled hb
  | returning => exact proper_returning hb
  | block => exact (proper_block hb).bind fun _ h => .pure h
  | ifElse => exact proper_ifElse hb
  | loop => exact proper_loop hb
  | switch => exact proper_switch hb
  | typeSwitch => exact proper_typeSwitch hb
  | expression | increment | decrement | go | defer =>
    refine (proper_firstExpr hb).bind ?_
    intro x hx
    exact .pure (proper_form rfl rfl True.intro rfl (by simp [children, ofStmt, hx]))
  | send =>
    refine (proper_exprIn hb).bind ?_
    intro chan hchan
    refine (proper_exprIn hb).bind ?_
    intro value hvalue
    exact .pure (proper_form rfl rfl True.intro rfl (by simp [children, ofStmt, hchan, hvalue]))
  | branch tok => exact .pure (proper_form rfl rfl True.intro rfl (by simp [children, ofStmt]))
  | select =>
    refine (proper_clauses (p := .selectBody) rfl fun c => proper_commClause hb).bind ?_
    intro body hbody
    exact .pure (proper_node rfl rfl True.intro (List.forall_mem_singleton.2 hbody))
  | declaration tok =>
    obtain ⟨hform, htok⟩ := declForm_of_stmtForm hf
    have hdecl : Lowering.decl src below n = genDecl src below tok n := by
      rw [Lowering.decl, hform]
    simp only [hdecl]
    refine (proper_genDecl hb tok).bind ?_
    rintro d ⟨hproper, hlocal⟩
    exact .pure (proper_form rfl rfl (hlocal htok) rfl (List.forall_mem_singleton.2 hproper))

end Parts

/-- **Run.** What is lowered from nodes of any number of levels is proper. -/
theorem proper_upTo (src : Placed) (levels : Nat) : (upTo src levels).Proper := by
  refine upTo_induction (P := Below.Proper) ?_ (fun below hb => ?_) levels
  · exact ⟨fun c => .pure (proper_badExpr _), fun c => .pure (proper_badStmt _)⟩
  · exact ⟨fun c => proper_expr hb, fun c => proper_stmt hb⟩

/-! ## Files -/

variable {root clause name : Concrete} {f : File}

theorem proper_fileAt : (fileAt src root clause name).Yields fun f =>
    (Node.file f).Proper .plain := by
  have hdecls : ((root.parts.filter fun n => !isPackageClause n).mapM
      (Lowering.decl src (upTo src root.height))).Yields fun ds =>
        ds.length = (root.parts.filter fun n => !isPackageClause n).length ∧
          ∀ d ∈ ds, (Node.decl d).Proper .plain :=
    .mapM fun _ _ => proper_decl (proper_upTo src root.height)
  refine (Yields.trivial _).bind fun doc _ => ?_
  refine hdecls.bind ?_
  rintro decls ⟨_, hall⟩
  refine (Yields.trivial _).bind fun pool _ => .pure ?_
  refine proper_form rfl rfl True.intro rfl ?_
  simp only [children, List.forall_mem_append, List.forall_mem_cons]
  exact ⟨by simp, by simp, proper_listOf.2 hall, by simp⟩

/-- Lowered files obey the grammar. Whatever the tree, if it is lowered at all then every node that
a walk of the file visits obeys in its place: the body of a switch holds clauses of a switch and
that of a select clauses of a select, and there are none elsewhere; a type switch has a guard; the
specs of a declaration are what its word says, and a declaration among statements is a general one
that imports nothing; no list holds one index, and no unary operator is a star; a range with a value
has a key; an ellipsis is the type of a parameter if it is over a type and else the length of an
array; an implicit empty statement stands right after a label. -/
theorem file_obeys (h : file src root = .ok f) :
    ((Node.file f).visitedIn .plain).map (·.2) = (Node.file f).visited ∧
      (∀ c ∈ (Node.file f).visitedIn .plain, c.2.Obeys c.1) ∧
      ∀ s, Node.stmt s ∈ (Node.file f).visited → ∀ k body, s.clauses? = some (k, body) →
        ∀ c ∈ body.list, c.kind = k := by
  obtain ⟨clause, -, name, -, rfl⟩ := exists_fileAt h
  have hproper : (Node.file (fileAt src root clause name (.ofTree src root)).1).Proper .plain :=
    proper_fileAt _
  refine ⟨map_snd_visitedIn .plain _, hproper, ?_⟩
  intro s hs k body hbody
  rw [← map_snd_visitedIn .plain] at hs
  obtain ⟨⟨p, m⟩, hmem, rfl⟩ := List.mem_map.1 hs
  exact (hproper.of_mem_visitedIn hmem).clauses hbody

open Concrete in
/-- A file with a variadic function in whose body there are a switch, a select and a label without a
statement. -/
def ruledFile : Concrete :=
  rule "source_file" none 0 81 [
    rule "package_clause" none 0 9 [
      token "package" 0 7, rule "package_identifier" none 8 9 []],
    rule "function_declaration" none 10 80 [
      token "func" 10 14,
      rule "identifier" (some "name") 15 16 [],
      rule "parameter_list" (some "parameters") 16 26 [
        token "(" 16 17,
        rule "variadic_parameter_declaration" none 17 25 [
          rule "identifier" (some "name") 17 18 [],
          token "..." 19 22,
          rule "type_identifier" (some "type") 22 25 []],
        token ")" 25 26],
      rule "block" (some "body") 27 80 [
        token "\x7b" 27 28,
        rule "expression_switch_statement" none 30 52 [
          token "switch" 30 36,
          rule "identifier" (some "value") 37 38 [],
          token "\x7b" 39 40,
          rule "expression_case" none 42 49 [
            token "case" 42 46,
            rule "expression_list" (some "value") 47 48 [rule "identifier" none 47 48 []],
            token ":" 48 49],
          token "\x7d" 51 52],
        rule "select_statement" none 54 75 [
          token "select" 54 60,
          token "\x7b" 61 62,
          rule "default_case" none 64 72 [token "default" 64 71, token ":" 71 72],
          token "\x7d" 74 75],
        rule "labeled_statement" none 76 78 [
          rule "label_name" (some "label") 76 77 [], token ":" 77 78],
        token "\x7d" 79 80]]]

/-- The text of that file. -/
def ruledSource : Placed where
  source := .ofString ("package p\nfunc f(x ...int) \x7b\n\tswitch x \x7b\n\tcase y:\n\t\x7d\n" ++
    "\tselect \x7b\n\tdefault:\n\t\x7d\nL:\n\x7d\n")
  base := 1

/-- Its nodes obey, among them an ellipsis, a clause of either sort and an empty statement. -/
theorem ruledFile_obeys : ∃ f, Lowering.file ruledSource ruledFile = .ok f ∧
    (∀ c ∈ (Node.file f).visitedIn .plain, c.2.Obeys c.1) ∧
    (((Node.file f).tree ⟨true⟩).nodes.map (·.kind)).filter [.ellipsis, .switchStmt, .caseClause,
        .selectStmt, .commClause, .labeledStmt, .emptyStmt].contains =
      [.ellipsis, .switchStmt, .caseClause, .selectStmt, .commClause, .labeledStmt,
        .emptyStmt] := by
  refine ⟨_, rfl, ?_, ?_⟩
  · have hlower : Lowering.file ruledSource ruledFile = .ok _ := rfl
    exact (file_obeys hlower).2.1
  · decide +kernel

end Lowering

end UniformTree
