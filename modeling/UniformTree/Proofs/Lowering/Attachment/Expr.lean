import UniformTree.Proofs.Lowering.Attachment.Basic
/-!
# Owners in expressions

Whatever an expression is lowered to is led back to the tree, and the fields of its struct types and
the elements of its interface types get the comments that are due to them, given that this is so
below.
-/

namespace UniformTree

open Concrete

/-- A node of the tree that has no more than so many levels below its own. -/
structure Course.Covers (w : Course) (levels : Nat) (n : Concrete) : Prop where
  mem : n ∈ w.root.preorder
  height : n.height - 1 ≤ levels

namespace Course

variable {w : Course} {levels : Nat} {n c : Concrete}

theorem Covers.mem_descendant (hn : w.Covers levels n) (hc : c ∈ n.descendants) :
    c ∈ w.root.preorder := mem_preorder_trans (mem_preorder_of_descendant hc) hn.mem

theorem Covers.height_le (hn : w.Covers levels n) (hc : c ∈ n.descendants) : c.height ≤ levels :=
  height_le_of_mem_descendants hn.height hc

theorem Covers.of_descendant (hn : w.Covers levels n) (hc : c ∈ n.descendants) :
    w.Covers levels c :=
  ⟨hn.mem_descendant hc, Nat.le_trans (Nat.sub_le _ _) (hn.height_le hc)⟩

end Course

/-- What nodes of up to a number of levels are lowered to is led back to the tree. -/
structure Tracing (w : Course) (levels : Nat) : Prop where
  expr : ∀ c ∈ w.root.preorder, c.height ≤ levels →
    ((Lowering.upTo w.src levels).expr c).Within w fun x => Traced w (.expr x)
  stmt : ∀ c ∈ w.root.preorder, c.height ≤ levels →
    ((Lowering.upTo w.src levels).stmt c).Within w fun s => Traced w (.stmt s)

namespace Lowering

open Lower

variable {w : Course} {levels : Nat} {n c : Concrete} {f : String}

/-! ## The parts that are lowered below -/

/-- What may stand in a field is traced if a node in it is. -/
theorem traces_optional {α : Type} {node : α → Node} {lower : Concrete → Lower α}
    (h : ∀ c ∈ n.children, (lower c).Within w fun a => Traced w (node a)) :
    Within w
      (match n.child? f with
        | some c => some <$> lower c
        | none => pure none) fun x => ∀ a ∈ x, Traced w (node a) := by
  cases hc : n.child? f with
  | some c =>
    apply (h c (mem_children_of_child? hc)).map
    intro a ha b hb
    cases hb
    exact ha
  | none => exact .pure (by simp)

section Parts

variable (hb : Tracing w levels) (hn : w.Covers levels n)

include hb hn

theorem traces_expr_below (hc : c ∈ n.descendants) :
    ((upTo w.src levels).expr c).Within w fun x => Traced w (.expr x) :=
  hb.expr c (hn.mem_descendant hc) (hn.height_le hc)

theorem traces_stmt_below (hc : c ∈ n.descendants) :
    ((upTo w.src levels).stmt c).Within w fun s => Traced w (.stmt s) :=
  hb.stmt c (hn.mem_descendant hc) (hn.height_le hc)

theorem traces_exprOf {x : Option Concrete} (h : ∀ d ∈ x, d ∈ n.descendants) :
    (exprOf w.src (upTo w.src levels) n x).Within w fun x => Traced w (.expr x) := by
  cases x with
  | none => exact .pure (traced_badExpr _)
  | some c => exact traces_expr_below hb hn (h c rfl)

theorem traces_exprIn :
    (exprIn w.src (upTo w.src levels) n f).Within w fun x => Traced w (.expr x) :=
  traces_exprOf hb hn fun _ hc => mem_descendants_of_child (mem_children_of_child? hc)

theorem traces_firstExpr :
    (firstExpr w.src (upTo w.src levels) n).Within w fun x => Traced w (.expr x) :=
  traces_exprOf hb hn fun _ hc => mem_descendants_of_part (List.mem_of_mem_head? hc)

theorem traces_exprIn? :
    (exprIn? (upTo w.src levels) n f).Within w fun x => ∀ e ∈ x, Traced w (.expr e) :=
  traces_optional fun _ hc => traces_expr_below hb hn (mem_descendants_of_child hc)

theorem traces_exprEach {ns : List Concrete} (h : ∀ c ∈ ns, c ∈ n.descendants) :
    (exprEach (upTo w.src levels) ns).Within w fun es => ∀ e ∈ es, Traced w (.expr e) :=
  .mapM fun c hc => traces_expr_below hb hn (h c hc)

/-- The parts of a list that stands in a field. -/
theorem traces_partsOf {list : Concrete} (hl : n.child? f = some list) :
    (exprEach (upTo w.src levels) list.parts).Within w fun es => ∀ e ∈ es, Traced w (.expr e) :=
  traces_exprEach hb hn fun _ hc => mem_descendants_of_part_in hl hc

theorem traces_exprs (hc : c ∈ n.children) :
    (exprs (upTo w.src levels) c).Within w fun es => ∀ e ∈ es, Traced w (.expr e) := by
  have hin := mem_descendants_of_child hc
  unfold exprs
  split
  · apply traces_exprEach hb hn
    intro d hd
    exact mem_descendants_trans (mem_preorder_of_descendant (mem_descendants_of_part hd)) hin
  · apply (traces_expr_below hb hn hin).bind
    intro x
    apply Within.pure
    intro hx
    exact List.forall_mem_singleton.2 hx

theorem traces_exprsEach {ns : List Concrete} (h : ∀ c ∈ ns, c ∈ n.children) :
    (ns.mapM (exprs (upTo w.src levels))).Within w fun rows =>
      ∀ es ∈ rows, ∀ e ∈ es, Traced w (.expr e) :=
  .mapM fun c hc => traces_exprs hb hn (h c hc)

theorem traces_exprsIn :
    (exprsIn (upTo w.src levels) n f).Within w fun es => ∀ e ∈ es, Traced w (.expr e) := by
  unfold exprsIn
  split
  · rename_i c hc
    exact traces_exprs hb hn (mem_children_of_child? hc)
  · exact .pure (by simp)

theorem traces_stmtIn? :
    (stmtIn? (upTo w.src levels) n f).Within w fun x => ∀ s ∈ x, Traced w (.stmt s) :=
  traces_optional fun _ hc => traces_stmt_below hb hn (mem_descendants_of_child hc)

theorem traces_flattened {ns : List Concrete} (h : ∀ c ∈ ns, c ∈ n.children) :
    (stmtEach (upTo w.src levels) (flattened ns)).Within w fun ss =>
      ∀ s ∈ ss, Traced w (.stmt s) :=
  .mapM fun _ hc => traces_stmt_below hb hn (mem_descendants_of_flattened h hc)

/-! ## Blocks -/

theorem grounds_block :
    (block w.src (upTo w.src levels) n).Within w fun b => Grounded w (.block b) := by
  apply (traces_flattened hb hn fun _ => mem_children_of_part).bind
  intro ss
  apply Within.pure
  intro hss
  constructor
  · simp [Node.owners]
  · exact List.forall_mem_map.2 hss

theorem traces_blockIn :
    (blockIn w.src (upTo w.src levels) n f).Within w fun b => Traced w (.block b) := by
  apply within_traced (r := .body f) rfl hn.mem hn.height rfl
  unfold blockIn
  split
  · rename_i c hc
    have hin := mem_descendants_of_child (mem_children_of_child? hc)
    exact grounds_block hb (hn.of_descendant hin)
  · apply Within.pure
    constructor <;> simp [emptyBlock, Node.owners, Node.children, Node.ofStmt]

/-! ## Field lists -/

omit hb hn in
/-- A list of fields is grounded if its fields are traced. -/
theorem grounds_members {member : Concrete → Lower Field} {s : Span}
    (h : ∀ c ∈ n.parts, (member c).Within w fun fd => Traced w (.field fd)) :
    Within w (do let list ← n.parts.mapM member; return ⟨s, list⟩) fun l =>
      Grounded w (.fieldList l) := by
  apply (Within.mapM h).bind
  intro list
  apply Within.pure
  intro hlist
  constructor
  · simp [Node.owners]
  · exact List.forall_mem_map.2 hlist

omit hb hn in
theorem traced_paramType {type : Expr} (h : Traced w (.expr type)) :
    Traced w (.expr (paramType w.src n type)) := by
  unfold paramType
  split
  · split
    · apply traced_of_children rfl rfl
      simpa [Node.children, Node.ofExpr] using h
    · exact h
  · exact h

theorem traces_param :
    (param w.src (upTo w.src levels) n).Within w fun fd => Traced w (.field fd) := by
  apply (traces_exprIn hb hn).bind
  intro type
  apply Within.pure
  intro htype
  apply traced_of_children rfl rfl
  simpa [Node.children, or_imp, forall_and] using traced_paramType htype

theorem grounds_params :
    (params w.src (upTo w.src levels) n).Within w fun l => Grounded w (.fieldList l) :=
  grounds_members fun _ hc => traces_param hb (hn.of_descendant (mem_descendants_of_part hc))

theorem traces_params :
    (params w.src (upTo w.src levels) n).Within w fun l => Traced w (.fieldList l) :=
  within_traced (r := .params) rfl hn.mem hn.height rfl (grounds_params hb hn)

theorem traces_paramsIn? : (paramsIn? w.src (upTo w.src levels) n f).Within w fun x =>
    ∀ l ∈ x, Traced w (.fieldList l) :=
  traces_optional fun _ hc => traces_params hb (hn.of_descendant (mem_descendants_of_child hc))

theorem traces_paramsOf :
    (paramsOf w.src (upTo w.src levels) n).Within w fun l => Traced w (.fieldList l) := by
  apply within_traced (r := .parameters) rfl hn.mem hn.height rfl
  unfold paramsOf
  split
  · rename_i c hc
    have hin := mem_descendants_of_child (mem_children_of_child? hc)
    exact grounds_params hb (hn.of_descendant hin)
  · apply Within.pure
    constructor <;> simp [Node.owners, Node.children]

theorem traces_results (hc : c ∈ n.descendants) :
    (results w.src (upTo w.src levels) c).Within w fun l => Traced w (.fieldList l) := by
  apply within_traced (r := .results) rfl (hn.mem_descendant hc) (hn.height_le hc) rfl
  unfold results
  split
  · exact grounds_params hb (hn.of_descendant hc)
  · apply (traces_expr_below hb hn hc).bind
    intro type
    apply Within.pure
    intro htype
    have hfield : Traced w (.field ⟨w.src.span c, none, [], type, none, none⟩) := by
      apply traced_of_children rfl rfl
      simpa [Node.children, Node.listOf, Node.slot] using htype
    constructor
    · simp [Node.owners]
    · simpa [Node.children] using hfield

theorem traces_resultsOf : (resultsOf w.src (upTo w.src levels) n).Within w fun x =>
    ∀ l ∈ x, Traced w (.fieldList l) :=
  traces_optional fun _ hc => traces_results hb hn (mem_descendants_of_child hc)

theorem traces_signature {start : UInt32} :
    (signature w.src (upTo w.src levels) n start).Within w fun t => Traced w (.funcType t) := by
  apply (traces_paramsIn? hb hn).bind
  intro typeParams
  apply (traces_paramsOf hb hn).bind
  intro params
  apply (traces_resultsOf hb hn).bind
  intro results
  apply Within.pure
  intro hresults hparams htypes
  apply traced_of_children rfl rfl
  simp only [Node.children, Node.ofExpr, List.forall_mem_append, List.forall_mem_cons,
    Node.forall_mem_slot]
  exact ⟨htypes, hparams, hresults⟩

/-! ## Struct fields and interface elements -/

omit hb hn in
/-- A list of fields whose fields are claimed is grounded. -/
theorem grounds_claimed {member : Concrete → Lower Field} {s : Span}
    (h : ∀ c ∈ n.parts, (member c).Within w fun fd =>
      Claimed w (.field fd) ∧ ∀ d ∈ (Node.field fd).children, Traced w d) :
    Within w (do let list ← n.parts.mapM member; return ⟨s, list⟩) fun l =>
      Grounded w (.fieldList l) ∧ ∀ fd ∈ l.list, Claimed w (.field fd) := by
  apply (Within.mapM h).bind
  intro list
  apply Within.pure
  intro hlist
  refine ⟨⟨by simp [Node.owners], List.forall_mem_map.2 ?_⟩, fun fd hfd => (hlist fd hfd).1⟩
  intro fd hfd
  exact traced_of_children rfl rfl (hlist fd hfd).2

omit hb hn in
theorem traced_embeddedType {names : List Ident} {type : Expr} (h : Traced w (.expr type)) :
    Traced w (.expr (embeddedType w.src n names type)) := by
  unfold embeddedType
  split
  · split
    · apply traced_of_children rfl rfl
      simpa [Node.children, Node.ofExpr] using h
    · exact h
  · exact h

/-- A struct field asks for its doc before its type is lowered and for its line comment after. -/
theorem claims_structField : (structField w.src (upTo w.src levels) n).Within w fun fd =>
    Claimed w (.field fd) ∧ ∀ d ∈ (Node.field fd).children, Traced w d := by
  apply within_claimed (r := .structField) rfl hn.mem hn.height rfl
  apply (within_takeDoc n).bind
  intro doc
  apply (traces_exprIn hb hn).bind
  intro type
  apply (within_takeLine n).bind
  intro line
  apply Within.pure
  intro hline htype hdoc
  constructor
  · intro hroot
    exact ⟨hdoc hroot, fun _ => hline hroot⟩
  · simpa [Node.children, or_imp, forall_and] using traced_embeddedType htype

/-- An element of an interface asks for its comments in the same order. -/
theorem claims_element (hc : c ∈ n.descendants) :
    (element w.src (upTo w.src levels) c).Within w fun fd =>
      Claimed w (.field fd) ∧ ∀ d ∈ (Node.field fd).children, Traced w d := by
  have htype : (elementType w.src (upTo w.src levels) c).Within w fun r =>
      Traced w (.expr r.2) := by
    unfold elementType
    split
    · apply (traces_signature hb (hn.of_descendant hc)).bind
      intro t
      exact .pure fun ht => ht
    · apply (traces_expr_below hb hn hc).bind
      intro x
      exact .pure fun hx => hx
  apply within_claimed (r := .element) rfl (hn.mem_descendant hc) (hn.height_le hc) rfl
  apply (within_takeDoc c).bind
  intro doc
  apply htype.bind
  intro r
  apply (within_takeLine c).bind
  intro line
  apply Within.pure
  intro hline hr hdoc
  constructor
  · intro hroot
    exact ⟨hdoc hroot, fun _ => hline hroot⟩
  · simpa [Node.children, or_imp, forall_and] using hr

/-! ## Expressions -/

omit hb hn in
/-- A struct type with fields that are traced and claimed. -/
theorem grounded_structType {s : Span} {l : FieldList} (hl : Traced w (.fieldList l))
    (hclaimed : ∀ fd ∈ l.list, Claimed w (.field fd)) : Grounded w (.expr (.structType s l)) where
  owners := List.forall_mem_map.2 hclaimed
  children := List.forall_mem_singleton.2 hl

theorem grounds_structType :
    (structType w.src (upTo w.src levels) n).Within w fun x => Grounded w (.expr x) := by
  unfold structType
  cases hlist : n.parts.head? with
  | some list =>
    have hin := hn.of_descendant (mem_descendants_of_part (List.mem_of_mem_head? hlist))
    have hfields := grounds_claimed (s := w.src.span list) fun c hc =>
      claims_structField hb (hin.of_descendant (mem_descendants_of_part hc))
    have hr : Reading.structFields.lower w.src (upTo w.src levels) n =
        Node.fieldList <$> structFields w.src (upTo w.src levels) list := by
      simp [Reading.lower, hlist]
    have htraced := within_traced hr hn.mem hn.height rfl (hfields.imp fun _ h => h.1)
    apply (htraced.and hfields).bind
    intro l
    apply Within.pure
    rintro ⟨hl, -, hclaimed⟩
    exact grounded_structType hl hclaimed
  | none =>
    have hlowered : Lowered w.src .structFields n (.fieldList ⟨w.src.span n, []⟩) := by
      refine ⟨levels, hn.height, default, ?_⟩
      rw [Reading.lower, hlist]
      rfl
    have hempty : Traced w (.fieldList ⟨w.src.span n, []⟩) := by
      apply traced_iff.2
      refine ⟨fun _ => ⟨.structFields, n, hn.mem, rfl, hlowered⟩, ?_⟩
      constructor <;> simp [Node.owners, Node.children]
    exact .pure (grounded_structType hempty (by simp))

theorem grounds_interfaceType {s : Span} :
    Within w (do return .interfaceType s (← elements w.src (upTo w.src levels) n)) fun x =>
      Grounded w (.expr x) := by
  have helements := grounds_claimed (s := braceSpan w.src n) fun c hc =>
    claims_element hb hn (mem_descendants_of_part hc)
  have htraced := within_traced (r := .elements) rfl hn.mem hn.height rfl
    (helements.imp fun _ h => h.1)
  apply (htraced.and helements).bind
  intro l
  apply Within.pure
  rintro ⟨hl, -, hclaimed⟩
  exact ⟨List.forall_mem_map.2 hclaimed, List.forall_mem_singleton.2 hl⟩

omit hb hn in
theorem grounded_instantiate {s : Span} {x : Expr} {indices : List Expr} (hx : Traced w (.expr x))
    (h : ∀ e ∈ indices, Traced w (.expr e)) : Grounded w (.expr (instantiate s x indices)) := by
  unfold instantiate
  split
  · constructor
    · simp [Node.owners]
    · simpa [Node.children, Node.ofExpr, hx] using h
  · constructor
    · simp [Node.owners]
    · simpa [Node.children, Node.ofExpr, hx] using h

theorem traces_callee :
    (callee w.src (upTo w.src levels) n).Within w fun x => Traced w (.expr x) := by
  cases hc : n.child? "type_arguments" with
  | some targs =>
    have hdirect : Reading.callee.isDirect n = true := by simp [Reading.isDirect, hc]
    apply within_traced (r := .callee) rfl hn.mem hn.height hdirect
    unfold callee
    simp only [hc]
    apply (traces_exprIn hb hn).bind
    intro fn
    apply (traces_partsOf hb hn hc).bind
    intro indices
    apply Within.pure
    intro hindices hfn
    exact grounded_instantiate hfn hindices
  | none =>
    unfold callee
    simp only [hc]
    apply (traces_exprIn hb hn).bind
    intro fn
    exact .pure fun hfn => hfn

omit hb hn in
/-- An expression that owns nothing is grounded if its children are traced. -/
theorem grounded_expr {x : Expr} (howners : (Node.expr x).owners = [])
    (h : ∀ c ∈ Node.ofExpr x, Traced w c) : Grounded w (.expr x) :=
  ⟨by simp [howners], h⟩

theorem grounds_call :
    (call w.src (upTo w.src levels) n).Within w fun x => Grounded w (.expr x) := by
  apply (traces_callee hb hn).bind
  intro fn
  cases hc : n.child? "arguments" with
  | some list =>
    apply (traces_partsOf hb hn hc).bind
    intro args
    apply Within.pure
    intro hargs hfn
    apply grounded_expr rfl
    simpa [Node.ofExpr, hfn] using hargs
  | none =>
    apply Within.pure
    intro hfn
    apply grounded_expr rfl
    simpa [Node.ofExpr, Node.listOf] using hfn

/-- A union is a chain of binary expressions over its terms, or its only term. -/
theorem traces_union :
    (union w.src (upTo w.src levels) n).Within w fun x => Traced w (.expr x) := by
  have hjoined (ys : List Expr) (x : Expr) (hx : Traced w (.expr x))
      (hys : ∀ y ∈ ys, Traced w (.expr y)) : Traced w
        (.expr (ys.foldl (fun x y => .binary (Span.cover x.span y.span) x "|" y) x)) := by
    induction ys generalizing x with
    | nil => exact hx
    | cons y ys ih =>
      rw [List.forall_mem_cons] at hys
      apply ih _ _ hys.2
      apply traced_of_children rfl rfl
      simpa [Node.children, Node.ofExpr, hx] using hys.1
  apply (traces_exprEach hb hn fun _ => mem_descendants_of_part).bind
  intro terms
  cases terms with
  | nil => exact .pure fun _ => traced_badExpr _
  | cons first rest =>
    apply Within.pure
    intro hterms
    rw [List.forall_mem_cons] at hterms
    exact hjoined rest first hterms.1 hterms.2

theorem grounds_keyed :
    (keyed w.src (upTo w.src levels) n).Within w fun x => Grounded w (.expr x) := by
  have hchild : ∀ {f : String} {i : Nat}, ∀ c ∈ (n.child? f <|> n.parts[i]?),
      c ∈ n.descendants := by
    intro f i c hc
    cases hf : n.child? f with
    | some d =>
      rw [hf] at hc
      cases hc
      exact mem_descendants_of_child (mem_children_of_child? hf)
    | none =>
      rw [hf] at hc
      exact mem_descendants_of_part (List.mem_of_getElem? hc)
  apply (traces_exprOf hb hn hchild).bind
  intro key
  apply (traces_exprOf hb hn hchild).bind
  intro value
  apply Within.pure
  intro hvalue hkey
  apply grounded_expr rfl
  simp [Node.ofExpr, hkey, hvalue]

theorem grounds_compositeLit :
    (compositeLit w.src (upTo w.src levels) n).Within w fun x => Grounded w (.expr x) := by
  apply (traces_exprIn hb hn).bind
  intro type
  cases hc : n.child? "body" with
  | some body =>
    apply (traces_partsOf hb hn hc).bind
    intro elts
    apply Within.pure
    intro helts htype
    apply grounded_expr rfl
    simpa [Node.ofExpr, Node.slot, htype] using helts
  | none =>
    apply Within.pure
    intro htype
    apply grounded_expr rfl
    simpa [Node.ofExpr, Node.slot, Node.listOf] using htype

theorem grounds_genericType :
    (genericType w.src (upTo w.src levels) n).Within w fun x => Grounded w (.expr x) := by
  apply (traces_exprIn hb hn).bind
  intro type
  cases hc : n.child? "type_arguments" with
  | some targs =>
    apply (traces_partsOf hb hn hc).bind
    intro indices
    apply Within.pure
    intro hindices htype
    exact grounded_instantiate htype hindices
  | none =>
    apply Within.pure
    intro htype
    exact grounded_instantiate htype (by simp)

theorem grounds_funcLit :
    (funcLit w.src (upTo w.src levels) n).Within w fun x => Grounded w (.expr x) := by
  apply (traces_signature hb hn).bind
  intro type
  apply (traces_blockIn hb hn).bind
  intro body
  apply Within.pure
  intro hbody htype
  apply grounded_expr rfl
  simp [Node.ofExpr, htype, hbody]

theorem grounds_unary :
    (unary w.src (upTo w.src levels) n).Within w fun x => Grounded w (.expr x) := by
  apply (traces_exprIn hb hn).bind
  intro x
  split <;> apply Within.pure <;> intro hx <;> apply grounded_expr rfl <;>
    simpa [Node.ofExpr] using hx

/-- An expression that is not handed on is grounded, if this is so below. -/
theorem grounds_expr (hdirect : Reading.expr.isDirect n = true) :
    (Lowering.expr w.src (upTo w.src levels) n).Within w fun x => Grounded w (.expr x) := by
  unfold Lowering.expr
  cases hf : ExprForm.ofKind n.kind with
  | wrapper | union => simp [Reading.isDirect, hf] at hdirect
  | name | literal | unknown => exact .pure (grounded_expr rfl (by simp [Node.ofExpr]))
  | funcLit => exact grounds_funcLit hb hn
  | compositeLit => exact grounds_compositeLit hb hn
  | keyed => exact grounds_keyed hb hn
  | generic => exact grounds_genericType hb hn
  | call => exact grounds_call hb hn
  | unary => exact grounds_unary hb hn
  | struct => exact grounds_structType hb hn
  | interface => exact grounds_interfaceType hb hn
  | function =>
    apply (traces_signature hb hn).bind
    intro type
    apply Within.pure
    intro htype
    exact (traced_iff.1 htype).2
  | paren | negated | pointer =>
    apply (traces_firstExpr hb hn).bind
    intro x
    apply Within.pure
    intro hx
    apply grounded_expr rfl
    simpa [Node.ofExpr] using hx
  | literalValue =>
    apply (traces_exprEach hb hn fun _ => mem_descendants_of_part).bind
    intro elts
    apply Within.pure
    intro helts
    apply grounded_expr rfl
    simpa [Node.ofExpr, Node.slot] using helts
  | selector | sliceType | channel =>
    apply (traces_exprIn hb hn).bind
    intro x
    apply Within.pure
    intro hx
    apply grounded_expr rfl
    simpa [Node.ofExpr, Node.slot] using hx
  | index =>
    apply (traces_exprIn hb hn).bind
    intro x
    apply (traces_exprEach hb hn fun _ hc =>
      mem_descendants_of_child (mem_children_of_partsIn hc)).bind
    intro indices
    apply Within.pure
    intro hindices hx
    exact grounded_instantiate hx hindices
  | instantiation =>
    apply (traces_exprIn hb hn).bind
    intro x
    apply (traces_exprEach hb hn fun _ hc =>
      mem_descendants_of_child (mem_children_of_partsBeside hc)).bind
    intro indices
    apply Within.pure
    intro hindices hx
    exact grounded_instantiate hx hindices
  | slice =>
    apply (traces_exprIn hb hn).bind
    intro x
    apply (traces_exprIn? hb hn).bind
    intro low
    apply (traces_exprIn? hb hn).bind
    intro high
    apply (traces_exprIn? hb hn).bind
    intro max
    apply Within.pure
    intro hmax hhigh hlow hx
    apply grounded_expr rfl
    simp only [Node.ofExpr, List.forall_mem_cons, List.forall_mem_append, Node.forall_mem_slot]
    exact ⟨hx, ⟨hlow, hhigh⟩, hmax⟩
  | typeAssert =>
    apply (traces_exprIn hb hn).bind
    intro x
    apply (traces_exprIn? hb hn).bind
    intro type
    apply Within.pure
    intro htype hx
    apply grounded_expr rfl
    simpa [Node.ofExpr, hx] using htype
  | conversion | binary | array | map =>
    apply (traces_exprIn hb hn).bind
    intro x
    apply (traces_exprIn hb hn).bind
    intro y
    apply Within.pure
    intro hy hx
    apply grounded_expr rfl
    simp [Node.ofExpr, Node.slot, or_imp, forall_and, hx, hy]
  | countedArray =>
    apply (traces_exprIn hb hn).bind
    intro elt
    apply Within.pure
    intro helt
    have hlength : Traced w (.expr (countedLength w.src n)) := by
      unfold countedLength
      split <;> exact traced_of_children rfl rfl (by simp [Node.children, Node.ofExpr, Node.slot])
    apply grounded_expr rfl
    simp [Node.ofExpr, Node.slot, hlength, helt]
  | qualified =>
    apply Within.pure
    apply grounded_expr rfl
    simp [Node.ofExpr]

/-- **Step.** An expression is led back to the tree, if this is so below. -/
theorem traces_expr :
    (Lowering.expr w.src (upTo w.src levels) n).Within w fun x => Traced w (.expr x) := by
  by_cases hdirect : Reading.expr.isDirect n = true
  · exact within_traced (r := .expr) rfl hn.mem hn.height hdirect (grounds_expr hb hn hdirect)
  · unfold Lowering.expr
    cases hf : ExprForm.ofKind n.kind with
    | wrapper => exact traces_firstExpr hb hn
    | union => exact traces_union hb hn
    | _ => simp [Reading.isDirect, hf] at hdirect

end Parts

end Lowering

end UniformTree
