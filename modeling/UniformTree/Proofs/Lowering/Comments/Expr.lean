import UniformTree.Proofs.Lowering.Comments.Conserves
/-!
# The comments in expressions

Each group that is taken while an expression is lowered is attached in the expression, given that
this is so below.
-/

namespace UniformTree

/-- No loop over a range has more than two targets. -/
def Concrete.NarrowRanges (n : Concrete) : Prop :=
  ∀ c ∈ n.preorder, c.kind = "range_clause" → ∀ left ∈ c.child? "left",
    left.kind = "expression_list" → left.parts.length ≤ 2

theorem Concrete.NarrowRanges.of_mem {n c : Concrete} (h : n.NarrowRanges) (hc : c ∈ n.preorder) :
    c.NarrowRanges := fun d hd => h d (mem_preorder_trans hd hc)

namespace Lower

variable {α : Type} {g : CommentGroup} {m : Lower α} {n c : Concrete} {held : Nat}
  {owns : α → Nat}

/-- What is conserved as far as ranges are narrow in a subtree is so in a larger one. -/
theorem Conserves.of_mem (h : m.Conserves g c.NarrowRanges held owns) (hc : c ∈ n.preorder) :
    m.Conserves g n.NarrowRanges held owns := by
  refine h.weaken ?_
  intro hn
  exact hn.of_mem hc

theorem Conserves.of_child (h : m.Conserves g c.NarrowRanges held owns) (hc : c ∈ n.children) :
    m.Conserves g n.NarrowRanges held owns := h.of_mem (Concrete.mem_preorder_of_child hc)

end Lower

/-- Whatever is lowered below conserves a group, as far as ranges are narrow. -/
structure Below.Conserving (g : CommentGroup) (below : Below) : Prop where
  expr : ∀ c, (below.expr c).Conserves g c.NarrowRanges 0 fun x => (Node.expr x).tally g
  stmt : ∀ c, (below.stmt c).Conserves g c.NarrowRanges 0 fun s => (Node.stmt s).tally g

namespace Lowering

open Concrete Lower

variable {g : CommentGroup} {src : Placed} {below : Below} {n : Concrete} {f : String}

/-! ## Comments that are taken -/

theorem conserves_takeIn {E : Prop} {fits : Slot → Bool} {lo hi : CommentPool → Nat} :
    Conserves g E 0 (fun pool => pool.takeIn fits (lo pool) (hi pool))
      (fun x => x.toList.count g) := by
  intro pool
  have h := (CommentPool.perm_remaining_takeIn pool fits (lo pool) (hi pool)).count_eq g
  rw [List.count_append] at h
  simp only [CommentPool.left]
  omega

theorem conserves_takeDoc {E : Prop} :
    (takeDoc src n).Conserves g E 0 (fun x => x.toList.count g) := conserves_takeIn

theorem conserves_takeLine {E : Prop} :
    (takeLine src n).Conserves g E 0 (fun x => x.toList.count g) := conserves_takeIn

/-! ## The parts that are lowered below -/

/-- What may stand in a field is conserved if a node in it is. -/
theorem conserves_optional {α : Type} {node : α → Node} {lower : Concrete → Lower α}
    (h : ∀ c, (lower c).Conserves g c.NarrowRanges 0 fun a => (node a).tally g) :
    Conserves g n.NarrowRanges 0
      (match n.child? f with
        | some c => some <$> lower c
        | none => pure none) fun x => Node.tallyAll g node x.toList := by
  cases hc : n.child? f with
  | some c => exact ((h c).of_child (mem_children_of_child? hc)).map fun a => by simp
  | none => exact .pure rfl

/-- The members of a list of fields own what the list owns. -/
theorem conserves_members {member : Concrete → Lower Field} {s : Span}
    (h : ∀ c, (member c).Conserves g c.NarrowRanges 0 fun fd => (Node.field fd).tally g) :
    Conserves g n.NarrowRanges 0 (do let list ← n.parts.mapM member; return ⟨s, list⟩)
      fun l => (Node.fieldList l).tally g := by
  have hlist : (n.parts.mapM member).Conserves g n.NarrowRanges 0 (Node.tallyAll g Node.field) :=
    .each fun c hc => (h c).of_child (mem_children_of_part hc)
  refine hlist.bind fun list => .node ?_
  simp [Node.children, Node.owned]

section Parts

variable (hb : below.Conserving g)

include hb

theorem conserves_exprOf {c : Option Concrete} (h : ∀ d ∈ c, d ∈ n.preorder) :
    (exprOf src below n c).Conserves g n.NarrowRanges 0 fun x => (Node.expr x).tally g := by
  cases c with
  | none => exact .pure (Node.tally_badExpr _)
  | some c => exact (hb.expr c).of_mem (h c rfl)

theorem conserves_exprIn :
    (exprIn src below n f).Conserves g n.NarrowRanges 0 fun x => (Node.expr x).tally g :=
  conserves_exprOf hb fun _ hc => mem_preorder_of_child (mem_children_of_child? hc)

theorem conserves_firstExpr :
    (firstExpr src below n).Conserves g n.NarrowRanges 0 fun x => (Node.expr x).tally g :=
  conserves_exprOf hb fun _ hc =>
    mem_preorder_of_child (mem_children_of_part (List.mem_of_mem_head? hc))

theorem conserves_exprIn? : (exprIn? below n f).Conserves g n.NarrowRanges 0 fun x =>
    Node.tallyAll g Node.expr x.toList := conserves_optional hb.expr

theorem conserves_exprEach {ns : List Concrete} (h : ∀ c ∈ ns, c ∈ n.preorder) :
    (exprEach below ns).Conserves g n.NarrowRanges 0 (Node.tallyAll g Node.expr) :=
  .each fun c hc => (hb.expr c).of_mem (h c hc)

/-- The parts of a list that stands in a field. -/
theorem conserves_partsOf {list : Concrete} (hl : n.child? f = some list) :
    (exprEach below list.parts).Conserves g n.NarrowRanges 0 (Node.tallyAll g Node.expr) :=
  conserves_exprEach hb fun _ hc =>
    mem_preorder_of_descendant (mem_descendants_of_part_in hl hc)

theorem conserves_exprs {c : Concrete} (h : c ∈ n.preorder) :
    (exprs below c).Conserves g n.NarrowRanges 0 (Node.tallyAll g Node.expr) := by
  unfold exprs
  split
  · refine conserves_exprEach hb fun d hd => mem_preorder_trans ?_ h
    exact mem_preorder_of_child (mem_children_of_part hd)
  · exact ((hb.expr c).of_mem h).bind fun x => .pure (by simp)

theorem conserves_exprsIn :
    (exprsIn below n f).Conserves g n.NarrowRanges 0 (Node.tallyAll g Node.expr) := by
  unfold exprsIn
  split
  · rename_i c hc
    exact conserves_exprs hb (mem_preorder_of_child (mem_children_of_child? hc))
  · exact .pure rfl

theorem conserves_stmtIn? : (stmtIn? below n f).Conserves g n.NarrowRanges 0 fun x =>
    Node.tallyAll g Node.stmt x.toList := conserves_optional hb.stmt

theorem conserves_flattened {ns : List Concrete} (h : ∀ c ∈ ns, c ∈ n.preorder) :
    (stmtEach below (flattened ns)).Conserves g n.NarrowRanges 0 (Node.tallyAll g Node.stmt) := by
  refine .each fun c hc => (hb.stmt c).of_mem ?_
  obtain ⟨d, hd, hcd⟩ := mem_preorder_of_flattened hc
  exact mem_preorder_trans hcd (h d hd)

/-! ## Blocks -/

theorem conserves_block :
    (block src below n).Conserves g n.NarrowRanges 0 fun b => (Node.block b).tally g := by
  refine (conserves_flattened hb fun c hc =>
    mem_preorder_of_child (mem_children_of_part hc)).bind fun ss => .node ?_
  simp [Node.children, Node.ofStmt, Node.owned]

theorem conserves_blockIn :
    (blockIn src below n f).Conserves g n.NarrowRanges 0 fun b => (Node.block b).tally g := by
  unfold blockIn
  split
  · rename_i c hc
    exact (conserves_block hb).of_child (mem_children_of_child? hc)
  · exact .node rfl

/-! ## Field lists -/

omit hb in
@[simp] theorem tally_paramType (type : Expr) :
    (Node.expr (paramType src n type)).tally g = (Node.expr type).tally g := by
  unfold paramType
  split
  · split
    · rw [Node.tally_expr]
      simp [Node.ofExpr]
    · rfl
  · rfl

theorem conserves_param :
    (param src below n).Conserves g n.NarrowRanges 0 fun fd => (Node.field fd).tally g := by
  refine (conserves_exprIn hb).bind fun type => .node ?_
  simp [Node.children, Node.owned]

theorem conserves_params :
    (params src below n).Conserves g n.NarrowRanges 0 fun l => (Node.fieldList l).tally g :=
  conserves_members fun _ => conserves_param hb

theorem conserves_paramsIn? : (paramsIn? src below n f).Conserves g n.NarrowRanges 0 fun x =>
    Node.tallyAll g Node.fieldList x.toList := conserves_optional fun _ => conserves_params hb

theorem conserves_results :
    (results src below n).Conserves g n.NarrowRanges 0 fun l => (Node.fieldList l).tally g := by
  unfold results
  split
  · exact conserves_params hb
  · refine (hb.expr n).bind fun type => .pure ?_
    have hfield : (Node.field ⟨src.span n, none, [], type, none, none⟩).tally g =
        (Node.expr type).tally g := by
      rw [Node.tally_eq]
      simp [Node.children, Node.owned]
    rw [Node.tally_eq]
    simp [Node.children, Node.owned, hfield]

theorem conserves_paramsOf :
    (paramsOf src below n).Conserves g n.NarrowRanges 0 fun l => (Node.fieldList l).tally g := by
  unfold paramsOf
  split
  · rename_i c hc
    exact (conserves_params hb).of_child (mem_children_of_child? hc)
  · exact .node rfl

theorem conserves_resultsOf : (resultsOf src below n).Conserves g n.NarrowRanges 0 fun x =>
    Node.tallyAll g Node.fieldList x.toList := conserves_optional fun _ => conserves_results hb

theorem conserves_signature {start : UInt32} : (signature src below n start).Conserves g
    n.NarrowRanges 0 fun t => (Node.funcType t).tally g := by
  refine (conserves_paramsIn? hb).bind fun typeParams => ?_
  refine (conserves_paramsOf hb).bind fun params => ?_
  refine (conserves_resultsOf hb).bind fun results => .node ?_
  simp [Node.children, Node.ofExpr, Node.owned]
  omega

omit hb in
@[simp] theorem tally_embeddedType (names : List Ident) (type : Expr) :
    (Node.expr (embeddedType src n names type)).tally g = (Node.expr type).tally g := by
  unfold embeddedType
  split
  · split
    · rw [Node.tally_expr]
      simp [Node.ofExpr]
    · rfl
  · rfl

/-- The doc is taken before the type is lowered and the line comment after it. -/
theorem conserves_structField :
    (structField src below n).Conserves g n.NarrowRanges 0 fun fd => (Node.field fd).tally g := by
  refine conserves_takeDoc.bind fun doc => ?_
  refine (conserves_exprIn hb).bind fun type => ?_
  refine conserves_takeLine.bind fun line => .node ?_
  simp [Node.children, Node.owned]
  omega

theorem conserves_structFields :
    (structFields src below n).Conserves g n.NarrowRanges 0 fun l => (Node.fieldList l).tally g :=
  conserves_members fun _ => conserves_structField hb

theorem conserves_element :
    (element src below n).Conserves g n.NarrowRanges 0 fun fd => (Node.field fd).tally g := by
  have htype : (elementType src below n).Conserves g n.NarrowRanges 0 fun r =>
      (Node.expr r.2).tally g := by
    unfold elementType
    split
    · exact (conserves_signature hb).bind fun t => .pure (Nat.zero_add _).symm
    · exact (hb.expr n).bind fun x => .pure (Nat.zero_add _).symm
  refine conserves_takeDoc.bind fun doc => ?_
  refine htype.bind fun r => ?_
  refine conserves_takeLine.bind fun line => .node ?_
  simp [Node.children, Node.owned]
  omega

theorem conserves_elements :
    (elements src below n).Conserves g n.NarrowRanges 0 fun l => (Node.fieldList l).tally g :=
  conserves_members fun _ => conserves_element hb

/-! ## Expressions -/

omit hb in
@[simp] theorem tally_instantiate (s : Span) (x : Expr) (indices : List Expr) :
    (Node.expr (instantiate s x indices)).tally g =
      (Node.expr x).tally g + Node.tallyAll g Node.expr indices := by
  unfold instantiate
  split <;> rw [Node.tally_expr] <;> simp [Node.ofExpr]

theorem conserves_callee :
    (callee src below n).Conserves g n.NarrowRanges 0 fun x => (Node.expr x).tally g := by
  refine (conserves_exprIn hb).bind fun fn => ?_
  split
  · rename_i targs ht
    refine (conserves_partsOf hb ht).bind fun is => .pure ?_
    simp
  · exact .pure (Nat.zero_add _).symm

theorem conserves_call :
    (call src below n).Conserves g n.NarrowRanges 0 fun x => (Node.expr x).tally g := by
  refine (conserves_callee hb).bind fun fn => ?_
  split
  · rename_i list hl
    refine (conserves_partsOf hb hl).bind fun args => .expr ?_
    simp [Node.ofExpr]
  · refine .expr ?_
    simp [Node.ofExpr]

/-- Joining the terms of a union keeps what each of them owns. -/
theorem conserves_union :
    (union src below n).Conserves g n.NarrowRanges 0 fun x => (Node.expr x).tally g := by
  have hjoined (ys : List Expr) (x : Expr) :
      (Node.expr (ys.foldl (fun x y => .binary (Span.cover x.span y.span) x "|" y) x)).tally g =
        (Node.expr x).tally g + Node.tallyAll g Node.expr ys := by
    induction ys generalizing x with
    | nil => rfl
    | cons y ys ih =>
      rw [List.foldl_cons, ih, Node.tally_expr]
      simp [Node.ofExpr]
      omega
  refine (conserves_exprEach hb fun c hc =>
    mem_preorder_of_child (mem_children_of_part hc)).bind fun es => ?_
  split
  · exact .pure (by simp)
  · refine .pure ?_
    rw [hjoined]
    simp

theorem conserves_keyed :
    (keyed src below n).Conserves g n.NarrowRanges 0 fun x => (Node.expr x).tally g := by
  have hchild : ∀ {f : String} {i : Nat}, ∀ c ∈ (n.child? f <|> n.parts[i]?), c ∈ n.preorder := by
    intro f i c hc
    cases hf : n.child? f with
    | some d =>
      rw [hf] at hc
      cases hc
      exact mem_preorder_of_child (mem_children_of_child? hf)
    | none =>
      rw [hf] at hc
      exact mem_preorder_of_child (mem_children_of_part (List.mem_of_getElem? hc))
  refine (conserves_exprOf hb hchild).bind fun k => ?_
  refine (conserves_exprOf hb hchild).bind fun v => .expr ?_
  simp [Node.ofExpr]

theorem conserves_compositeLit :
    (compositeLit src below n).Conserves g n.NarrowRanges 0 fun x => (Node.expr x).tally g := by
  refine (conserves_exprIn hb).bind fun t => ?_
  split
  · rename_i body hbody
    refine (conserves_partsOf hb hbody).bind fun elts => .expr ?_
    simp [Node.ofExpr]
  · refine .expr ?_
    simp [Node.ofExpr]

theorem conserves_genericType :
    (genericType src below n).Conserves g n.NarrowRanges 0 fun x => (Node.expr x).tally g := by
  refine (conserves_exprIn hb).bind fun t => ?_
  split
  · rename_i targs ht
    refine (conserves_partsOf hb ht).bind fun is => .pure ?_
    simp
  · exact .pure (by simp)

theorem conserves_structType :
    (structType src below n).Conserves g n.NarrowRanges 0 fun x => (Node.expr x).tally g := by
  unfold structType
  split
  · rename_i list hl
    have hin := mem_children_of_part (List.mem_of_mem_head? hl)
    refine ((conserves_structFields hb).of_child hin).bind fun l => .expr ?_
    simp [Node.ofExpr]
  · refine .expr ?_
    have : (Node.fieldList ⟨src.span n, []⟩).tally g = 0 := by rw [Node.tally_eq]; rfl
    simp [Node.ofExpr, this]

theorem conserves_funcLit :
    (funcLit src below n).Conserves g n.NarrowRanges 0 fun x => (Node.expr x).tally g := by
  refine (conserves_signature hb).bind fun t => ?_
  refine (conserves_blockIn hb).bind fun b => .expr ?_
  simp [Node.ofExpr]

theorem conserves_unary :
    (unary src below n).Conserves g n.NarrowRanges 0 fun x => (Node.expr x).tally g := by
  refine (conserves_exprIn hb).bind fun x => ?_
  split <;> refine .pure ?_ <;> rw [Node.tally_expr] <;> simp [Node.ofExpr]

/-- **Step.** An expression owns each group that was taken for it, if this is so below. -/
theorem conserves_expr :
    (Lowering.expr src below n).Conserves g n.NarrowRanges 0 fun x => (Node.expr x).tally g := by
  unfold Lowering.expr
  cases hf : ExprForm.ofKind n.kind with
  | name => exact .pure (Node.tally_ident _)
  | literal => exact .pure (Node.tally_basicLit _)
  | unknown => exact .pure (Node.tally_badExpr _)
  | funcLit => exact conserves_funcLit hb
  | compositeLit => exact conserves_compositeLit hb
  | wrapper => exact conserves_firstExpr hb
  | keyed => exact conserves_keyed hb
  | generic => exact conserves_genericType hb
  | call => exact conserves_call hb
  | unary => exact conserves_unary hb
  | union => exact conserves_union hb
  | struct => exact conserves_structType hb
  | function => exact (conserves_signature hb).bind fun t => .pure (Nat.zero_add _).symm
  | paren | negated | pointer =>
    refine (conserves_firstExpr hb).bind fun x => .expr ?_
    simp [Node.ofExpr]
  | literalValue =>
    refine (conserves_exprEach hb fun c hc =>
      mem_preorder_of_child (mem_children_of_part hc)).bind fun es => .expr ?_
    simp [Node.ofExpr]
  | selector | sliceType | channel =>
    refine (conserves_exprIn hb).bind fun x => .expr ?_
    simp [Node.ofExpr]
  | index =>
    refine (conserves_exprIn hb).bind fun x => ?_
    refine (conserves_exprEach hb fun c hc =>
      mem_preorder_of_child (mem_children_of_partsIn hc)).bind fun is => .pure ?_
    simp
  | instantiation =>
    refine (conserves_exprIn hb).bind fun x => ?_
    refine (conserves_exprEach hb fun c hc =>
      mem_preorder_of_child (mem_children_of_partsBeside hc)).bind fun is => .pure ?_
    simp
  | slice =>
    refine (conserves_exprIn hb).bind fun x => (conserves_exprIn? hb).bind fun low => ?_
    refine (conserves_exprIn? hb).bind fun high => (conserves_exprIn? hb).bind fun max => .expr ?_
    simp [Node.ofExpr]
    omega
  | typeAssert =>
    refine (conserves_exprIn hb).bind fun x => (conserves_exprIn? hb).bind fun type => .expr ?_
    simp [Node.ofExpr]
  | conversion | binary | array | map =>
    refine (conserves_exprIn hb).bind fun x => (conserves_exprIn hb).bind fun y => .expr ?_
    simp [Node.ofExpr]
  | countedArray =>
    refine (conserves_exprIn hb).bind fun x => .pure ?_
    have hlength : (Node.expr (countedLength src n)).tally g = 0 := by
      unfold countedLength
      split <;> rw [Node.tally_expr] <;> rfl
    rw [Node.tally_expr]
    simp [Node.ofExpr, hlength]
  | interface =>
    refine (conserves_elements hb).bind fun l => .expr ?_
    simp [Node.ofExpr]
  | qualified =>
    refine .expr ?_
    simp [Node.ofExpr]

end Parts

end Lowering

end UniformTree
