import UniformTree.Proofs.Lowering.Rules.Basic
import UniformTree.Proofs.Lowering.Yields
/-!
# Expressions keep the rules

If what is lowered below is proper in a plain place then so are expressions and types one level up:
`Lowering.proper_expr`. The one ellipsis over a type is made for a parameter, and the one over
nothing for the length of an array.
-/

namespace UniformTree

open Node

/-- Expressions and statements on the levels below are proper in a plain place. -/
structure Below.Proper (below : Below) : Prop where
  expr : ∀ c, (below.expr c).Yields fun x => (Node.expr x).Proper .plain
  stmt : ∀ c, (below.stmt c).Yields fun s => (Node.stmt s).Proper .plain

namespace Node

variable {p : Place}

theorem proper_field {fd : Field} (hp : p.isClause = false)
    (htype : (expr fd.type).Proper p.inField) : (field fd).Proper p := by
  refine proper_node rfl hp True.intro ?_
  simp only [childrenIn, List.forall_mem_append, List.forall_mem_cons, forall_mem_allIn]
  exact ⟨⟨by simp, by simp⟩, htype, by simp, by simp⟩

theorem proper_fieldList {l : FieldList} (hp : p.isClause = false)
    (h : ∀ fd ∈ l.list, (field fd).Proper p.inFieldList) : (fieldList l).Proper p :=
  proper_node rfl hp True.intro (List.forall_mem_map.2 h)

theorem proper_block {b : BlockStmt} (hp : p.isClause = false)
    (h : ∀ s ∈ b.list, (stmt s).Proper p.inBlock) : (block b).Proper p :=
  proper_node rfl hp True.intro (List.forall_mem_map.2 h)

theorem proper_funcType {t : FuncType} (htypeParams : ∀ l ∈ t.typeParams,
    (fieldList l).Proper .parameters) (hparams : (fieldList t.params).Proper .parameters)
    (hresults : ∀ l ∈ t.results, (fieldList l).Proper .parameters) :
    (funcType t).Proper .plain := by
  refine proper_node rfl rfl True.intro (forall_mem_allIn.2 ?_)
  simp only [ofExpr, List.forall_mem_append, List.forall_mem_cons, forall_mem_slot]
  exact ⟨htypeParams, hparams, hresults⟩

/-- A type with its arguments keeps the rule, since one argument makes an index. -/
theorem proper_instantiate (s : Span) {x : Expr} {is : List Expr} (hx : (expr x).Proper .plain)
    (his : ∀ i ∈ is, (expr i).Proper .plain) :
    (expr (Lowering.instantiate s x is)).Proper .plain := by
  have hmany (hlength : is.length ≠ 1) : (expr (.indexList s x is)).Proper .plain :=
    proper_form rfl rfl hlength rfl (List.forall_mem_cons.2 ⟨hx, proper_listOf.2 his⟩)
  match is with
  | [] => exact hmany (by decide)
  | [i] =>
    have hi := his i List.mem_cons_self
    have hone : (expr (.index s x i)).Proper .plain :=
      proper_form rfl rfl True.intro rfl (by simp [children, ofExpr, hx, hi])
    exact hone
  | i :: j :: is => exact hmany (by simp)

end Node

namespace Lowering

open Lower

variable {src : Placed} {below : Below} {n : Concrete} {f : String}

/-! ## The parts of a node -/

section Parts

variable (hb : below.Proper)

include hb

theorem proper_exprIn : (exprIn src below n f).Yields fun x => (Node.expr x).Proper .plain :=
  yields_exprIn (fun c _ => hb.expr c) (proper_badExpr _)

theorem proper_firstExpr : (firstExpr src below n).Yields fun x => (Node.expr x).Proper .plain :=
  yields_firstExpr (fun c _ => hb.expr c) (proper_badExpr _)

theorem proper_exprIn? : (exprIn? below n f).Yields fun x =>
    ∀ e ∈ x, (Node.expr e).Proper .plain := yields_exprIn? fun c _ => hb.expr c

theorem proper_exprEach (ns : List Concrete) : (exprEach below ns).Yields fun es =>
    ∀ e ∈ es, (Node.expr e).Proper .plain :=
  (yields_exprEach fun c _ => hb.expr c).imp fun _ hes => hes.2

theorem proper_exprs : (exprs below n).Yields fun es => ∀ e ∈ es, (Node.expr e).Proper .plain :=
  (yields_exprs fun c _ => hb.expr c).imp fun _ hes => hes.2

theorem proper_exprsIn : (exprsIn below n f).Yields fun es =>
    ∀ e ∈ es, (Node.expr e).Proper .plain := yields_exprsIn fun c _ => hb.expr c

theorem proper_stmtIn? : (stmtIn? below n f).Yields fun x =>
    ∀ s ∈ x, (Node.stmt s).Proper .plain := yields_stmtIn? fun c _ => hb.stmt c

theorem proper_stmtEach (ns : List Concrete) : (stmtEach below ns).Yields fun ss =>
    ∀ s ∈ ss, (Node.stmt s).Proper .plain := yields_stmtEach fun c _ => hb.stmt c

theorem proper_block : (block src below n).Yields fun b => (Node.block b).Proper .plain :=
  (proper_stmtEach hb _).bind fun _ hlist => .pure (Node.proper_block rfl hlist)

theorem proper_blockIn : (blockIn src below n f).Yields fun b => (Node.block b).Proper .plain := by
  unfold blockIn
  split
  · exact proper_block hb
  · exact .pure (Node.proper_block rfl (by simp [emptyBlock]))

/-! ## Parameters -/

omit hb in
/-- The fields of a list are lowered from the parts of its node, each in the same way. -/
theorem proper_fieldsOf {p : Place} (hp : p.isClause = false) {lower : Concrete → Lower Field}
    {s : Span} (h : ∀ c, (lower c).Yields fun fd => (field fd).Proper p.inFieldList) :
    Yields (n.parts.mapM lower >>= fun list => pure ⟨s, list⟩) fun l =>
      (fieldList l).Proper p :=
  (Yields.mapM fun c _ => h c).bind fun _ hlist => .pure (proper_fieldList hp hlist.2)

omit hb in
/-- The type of a parameter, or the ellipsis over it. -/
theorem proper_paramType {x : Expr} (hx : (Node.expr x).Proper .plain) :
    (Node.expr (paramType src n x)).Proper .parameterType := by
  have hplain : (Node.expr x).Proper .parameterType := hx.of_plain rfl
  unfold paramType
  split
  · split
    · exact proper_form rfl rfl rfl rfl (by simp [children, ofExpr, hx])
    · exact hplain
  · exact hplain

theorem proper_param : (param src below n).Yields fun fd => (field fd).Proper .parameter :=
  (proper_exprIn hb).bind fun _ hx => .pure (proper_field rfl (proper_paramType hx))

theorem proper_params : (params src below n).Yields fun l => (fieldList l).Proper .parameters :=
  proper_fieldsOf (p := .parameters) rfl fun _ => proper_param hb

theorem proper_paramsIn? : (paramsIn? src below n f).Yields fun x =>
    ∀ l ∈ x, (fieldList l).Proper .parameters := yields_optional fun _ _ => proper_params hb

theorem proper_results : (results src below n).Yields fun l =>
    (fieldList l).Proper .parameters := by
  unfold results
  split
  · exact proper_params hb
  · refine (hb.expr n).bind ?_
    intro x hx
    have hfield : (field ⟨src.span n, none, [], x, none, none⟩).Proper .parameter :=
      proper_field rfl (hx.of_plain rfl)
    exact .pure (proper_fieldList rfl (List.forall_mem_singleton.2 hfield))

theorem proper_paramsOf : (paramsOf src below n).Yields fun l =>
    (fieldList l).Proper .parameters := by
  unfold paramsOf
  split
  · exact proper_params hb
  · exact .pure (proper_fieldList rfl (by simp))

theorem proper_resultsOf : (resultsOf src below n).Yields fun x =>
    ∀ l ∈ x, (fieldList l).Proper .parameters := yields_optional fun _ _ => proper_results hb

theorem proper_signature {start : UInt32} : (signature src below n start).Yields fun t =>
    (funcType t).Proper .plain := by
  refine (proper_paramsIn? hb).bind ?_
  intro typeParams htypeParams
  refine (proper_paramsOf hb).bind ?_
  intro params hparams
  refine (proper_resultsOf hb).bind ?_
  intro results hresults
  exact .pure (proper_funcType htypeParams hparams hresults)

/-! ## Fields of structs and interfaces -/

omit hb in
theorem proper_embeddedType {names : List Ident} {x : Expr} (hx : (Node.expr x).Proper .plain) :
    (Node.expr (embeddedType src n names x)).Proper .plain := by
  unfold embeddedType
  split
  · split
    · exact proper_form rfl rfl True.intro rfl (by simp [children, ofExpr, hx])
    · exact hx
  · exact hx

theorem proper_structField : (structField src below n).Yields fun fd =>
    (field fd).Proper .plain := by
  refine (Yields.trivial _).bind fun doc _ => ?_
  refine (proper_exprIn hb).bind ?_
  intro x hx
  refine (Yields.trivial _).bind fun line _ => .pure ?_
  exact proper_field rfl (proper_embeddedType hx)

theorem proper_structFields : (structFields src below n).Yields fun l =>
    (fieldList l).Proper .plain :=
  proper_fieldsOf (p := .plain) rfl fun _ => proper_structField hb

theorem proper_elementType : (elementType src below n).Yields fun r =>
    (Node.expr r.2).Proper .plain := by
  unfold elementType
  split
  · exact (proper_signature hb).bind fun _ ht => .pure ht
  · exact (hb.expr n).bind fun _ hx => .pure hx

theorem proper_element : (element src below n).Yields fun fd => (field fd).Proper .plain := by
  refine (Yields.trivial _).bind fun doc _ => ?_
  refine (proper_elementType hb).bind ?_
  intro r hr
  refine (Yields.trivial _).bind fun line _ => .pure ?_
  exact proper_field rfl hr

theorem proper_elements : (elements src below n).Yields fun l => (fieldList l).Proper .plain :=
  proper_fieldsOf (p := .plain) rfl fun _ => proper_element hb

/-! ## Expressions -/

theorem proper_callee : (callee src below n).Yields fun x => (Node.expr x).Proper .plain := by
  refine (proper_exprIn hb).bind ?_
  intro fn hfn
  split
  · refine (proper_exprEach hb _).bind ?_
    intro indices hindices
    exact .pure (proper_instantiate _ hfn hindices)
  · exact .pure hfn

theorem proper_call : (call src below n).Yields fun x => (Node.expr x).Proper .plain := by
  refine (proper_callee hb).bind ?_
  intro fn hfn
  split
  · refine (proper_exprEach hb _).bind ?_
    intro args hargs
    exact .pure (proper_form rfl rfl True.intro rfl
      (List.forall_mem_cons.2 ⟨hfn, proper_listOf.2 hargs⟩))
  · exact .pure (proper_form rfl rfl True.intro rfl (by simp [children, ofExpr, hfn]))

theorem proper_keyed : (keyed src below n).Yields fun x => (Node.expr x).Proper .plain := by
  have hpart (c : Option Concrete) : (exprOf src below n c).Yields fun x =>
      (Node.expr x).Proper .plain := yields_exprOf (fun c _ => hb.expr c) (proper_badExpr _)
  refine (hpart _).bind ?_
  intro key hkey
  refine (hpart _).bind ?_
  intro value hvalue
  exact .pure (proper_form rfl rfl True.intro rfl (by simp [children, ofExpr, hkey, hvalue]))

theorem proper_funcLit : (funcLit src below n).Yields fun x => (Node.expr x).Proper .plain := by
  refine (proper_signature hb).bind ?_
  intro type htype
  refine (proper_blockIn hb).bind ?_
  intro body hbody
  exact .pure (proper_form rfl rfl True.intro rfl (by simp [children, ofExpr, htype, hbody]))

theorem proper_compositeLit : (compositeLit src below n).Yields fun x =>
    (Node.expr x).Proper .plain := by
  refine (proper_exprIn hb).bind ?_
  intro type htype
  split
  · refine (proper_exprEach hb _).bind ?_
    intro elts helts
    refine .pure (proper_form rfl rfl True.intro rfl ?_)
    exact List.forall_mem_cons.2 ⟨htype, proper_listOf.2 helts⟩
  · exact .pure (proper_form rfl rfl True.intro rfl (by simp [children, ofExpr, slot, htype]))

theorem proper_genericType : (genericType src below n).Yields fun x =>
    (Node.expr x).Proper .plain := by
  refine (proper_exprIn hb).bind ?_
  intro x hx
  split
  · refine (proper_exprEach hb _).bind ?_
    intro indices hindices
    exact .pure (proper_instantiate _ hx hindices)
  · exact .pure (proper_instantiate _ hx (by simp))

theorem proper_structType : (structType src below n).Yields fun x =>
    (Node.expr x).Proper .plain := by
  unfold structType
  split
  · refine (proper_structFields hb).bind ?_
    intro fields hfields
    exact .pure (proper_form rfl rfl True.intro rfl (List.forall_mem_singleton.2 hfields))
  · have hfields : (fieldList ⟨src.span n, []⟩).Proper .plain := proper_fieldList rfl (by simp)
    exact .pure (proper_form rfl rfl True.intro rfl (List.forall_mem_singleton.2 hfields))

/-- A star makes a pointer or its target, so what is left is another operator. -/
theorem proper_unary : (unary src below n).Yields fun x => (Node.expr x).Proper .plain := by
  refine (proper_exprIn hb).bind ?_
  intro x hx
  split
  · exact .pure (proper_form rfl rfl True.intro rfl (by simp [children, ofExpr, hx]))
  · rename_i hop
    have hne : operator n ≠ "*" := fun h => hop (beq_iff_eq.2 h)
    exact .pure (proper_form rfl rfl hne rfl (by simp [children, ofExpr, hx]))

omit hb in
theorem proper_joined (ys : List Expr) {x : Expr} (hx : (Node.expr x).Proper .plain)
    (hys : ∀ y ∈ ys, (Node.expr y).Proper .plain) :
    (Node.expr (ys.foldl (fun x y => .binary (Span.cover x.span y.span) x "|" y) x)).Proper
      .plain := by
  induction ys generalizing x with
  | nil => exact hx
  | cons y ys ih =>
    rw [List.forall_mem_cons] at hys
    exact ih (proper_form rfl rfl True.intro rfl (by simp [children, ofExpr, hx, hys.1])) hys.2

theorem proper_union : (union src below n).Yields fun x => (Node.expr x).Proper .plain := by
  refine (proper_exprEach hb _).bind ?_
  intro es hes
  split
  · exact .pure (proper_badExpr _)
  · rw [List.forall_mem_cons] at hes
    exact .pure (proper_joined _ hes.1 hes.2)

omit hb in
theorem proper_countedLength : (Node.expr (countedLength src n)).Proper .arrayLength := by
  unfold countedLength
  split <;> exact proper_form rfl rfl rfl rfl (by simp [children, ofExpr, slot])

omit hb in
theorem proper_arrayType {s : Span} {len : Option Expr} {elt : Expr}
    (hlen : ∀ e ∈ len, (Node.expr e).Proper .arrayLength) (helt : (Node.expr elt).Proper .plain) :
    (Node.expr (.arrayType s len elt)).Proper .plain := by
  refine proper_node rfl rfl True.intro ?_
  simp only [childrenIn, List.forall_mem_append, forall_mem_allIn, List.forall_mem_singleton]
  exact ⟨forall_mem_slot.2 hlen, helt⟩

/-- **Step.** An expression is proper if this is so below. -/
theorem proper_expr : (Lowering.expr src below n).Yields fun x => (Node.expr x).Proper .plain := by
  unfold Lowering.expr
  cases ExprForm.ofKind n.kind with
  | name => exact .pure (proper_ident _)
  | literal => exact .pure (proper_basicLit _)
  | unknown => exact .pure (proper_badExpr _)
  | funcLit => exact proper_funcLit hb
  | compositeLit => exact proper_compositeLit hb
  | wrapper => exact proper_firstExpr hb
  | keyed => exact proper_keyed hb
  | generic => exact proper_genericType hb
  | call => exact proper_call hb
  | unary => exact proper_unary hb
  | union => exact proper_union hb
  | struct => exact proper_structType hb
  | function => exact (proper_signature hb).bind fun _ ht => .pure ht
  | paren | pointer =>
    refine (proper_firstExpr hb).bind ?_
    intro x hx
    exact .pure (proper_form rfl rfl True.intro rfl (by simp [children, ofExpr, hx]))
  | negated =>
    refine (proper_firstExpr hb).bind ?_
    intro x hx
    have hne : "~" ≠ "*" := by decide
    exact .pure (proper_form rfl rfl hne rfl (by simp [children, ofExpr, hx]))
  | literalValue =>
    refine (proper_exprEach hb _).bind ?_
    intro elts helts
    exact .pure (proper_form rfl rfl True.intro rfl (proper_listOf.2 helts))
  | selector | channel =>
    refine (proper_exprIn hb).bind ?_
    intro x hx
    exact .pure (proper_form rfl rfl True.intro rfl (by simp [children, ofExpr, hx]))
  | index | instantiation =>
    refine (proper_exprIn hb).bind ?_
    intro x hx
    refine (proper_exprEach hb _).bind ?_
    intro indices hindices
    exact .pure (proper_instantiate _ hx hindices)
  | slice =>
    refine (proper_exprIn hb).bind ?_
    intro x hx
    refine (proper_exprIn? hb).bind ?_
    intro low hlow
    refine (proper_exprIn? hb).bind ?_
    intro high hhigh
    refine (proper_exprIn? hb).bind ?_
    intro max hmax
    refine .pure (proper_form rfl rfl True.intro rfl ?_)
    simp only [children, ofExpr, List.forall_mem_cons, List.forall_mem_append, forall_mem_slot]
    exact ⟨hx, ⟨hlow, hhigh⟩, hmax⟩
  | typeAssert =>
    refine (proper_exprIn hb).bind ?_
    intro x hx
    refine (proper_exprIn? hb).bind ?_
    intro type htype
    refine .pure (proper_form rfl rfl True.intro rfl ?_)
    exact List.forall_mem_cons.2 ⟨hx, forall_mem_slot.2 htype⟩
  | conversion =>
    refine (proper_exprIn hb).bind ?_
    intro fn hfn
    refine (proper_exprIn hb).bind ?_
    intro arg harg
    refine .pure (proper_form rfl rfl True.intro rfl ?_)
    exact List.forall_mem_cons.2 ⟨hfn, proper_listOf.2 (List.forall_mem_singleton.2 harg)⟩
  | binary | map =>
    refine (proper_exprIn hb).bind ?_
    intro x hx
    refine (proper_exprIn hb).bind ?_
    intro y hy
    exact .pure (proper_form rfl rfl True.intro rfl (by simp [children, ofExpr, hx, hy]))
  | array =>
    refine (proper_exprIn hb).bind ?_
    intro len hlen
    refine (proper_exprIn hb).bind ?_
    intro elt helt
    have hopen : (Node.expr len).Proper .arrayLength := hlen.of_plain rfl
    exact .pure (proper_arrayType (by simpa using hopen) helt)
  | countedArray =>
    refine (proper_exprIn hb).bind ?_
    intro elt helt
    exact .pure (proper_arrayType (by simpa using proper_countedLength) helt)
  | sliceType =>
    refine (proper_exprIn hb).bind ?_
    intro elt helt
    exact .pure (proper_arrayType (by simp) helt)
  | interface =>
    refine (proper_elements hb).bind ?_
    intro methods hmethods
    exact .pure (proper_form rfl rfl True.intro rfl (List.forall_mem_singleton.2 hmethods))
  | qualified =>
    exact .pure (proper_form rfl rfl True.intro rfl (by simp [children, ofExpr]))

end Parts

end Lowering

end UniformTree
