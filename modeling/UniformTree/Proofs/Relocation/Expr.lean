import UniformTree.Lowering.Expr
import UniformTree.Proofs.Relocation.Pool
/-!
# Lowering expressions at another base

Lowering puts positions together and never looks at them. `Lower.Relocates` compares two runs, one
at each base: from a relocated pool the second gives the relocated result of the first and leaves
its relocated pool. Here this is carried through fields and expressions, given that it holds below.
-/

namespace UniformTree

namespace Lower

variable {ρ : Relocation} {α β : Type} {m m' : Lower α} {f f' : α → Lower β} {move : α → α}
  {move' : β → β}

/-- From a relocated pool, the second run gives the relocated result of the first and leaves its
relocated pool. -/
def Relocates (ρ : Relocation) (m m' : Lower α) (move : α → α) : Prop :=
  ∀ pool : CommentPool, m' (pool.relocate ρ) = (move (m pool).1, (m pool).2.relocate ρ)

theorem Relocates.pure {a a' : α} (h : move a = a') :
    Relocates ρ (pure a) (Pure.pure a') move := by
  subst h
  exact fun _ => rfl

theorem Relocates.bind (hm : Relocates ρ m m' move)
    (hf : ∀ a, Relocates ρ (f a) (f' (move a)) move') :
    Relocates ρ (m >>= f) (m' >>= f') move' := by
  intro pool
  refine Eq.trans ?_ (hf (m pool).1 (m pool).2)
  show f' (m' (pool.relocate ρ)).1 (m' (pool.relocate ρ)).2 = _
  rw [hm pool]

theorem Relocates.map {g g' : α → β} (hm : Relocates ρ m m' move)
    (hg : ∀ a, move' (g a) = g' (move a)) : Relocates ρ (g <$> m) (g' <$> m') move' := by
  intro pool
  show (g' (m' (pool.relocate ρ)).1, (m' (pool.relocate ρ)).2) = _
  rw [hm pool, ← hg]
  rfl

/-- One step for each element gives the list of the relocated results. -/
theorem Relocates.mapM {xs : List α} (h : ∀ x ∈ xs, Relocates ρ (f x) (f' x) move') :
    Relocates ρ (xs.mapM f) (xs.mapM f') (List.map move') := by
  induction xs with
  | nil => exact .pure rfl
  | cons x xs ih =>
    rw [List.mapM_cons, List.mapM_cons]
    obtain ⟨hx, hxs⟩ := List.forall_mem_cons.1 h
    exact hx.bind fun y => (ih hxs).bind fun ys => .pure rfl

end Lower

/-- Whatever is lowered below is relocated at the other base. -/
structure Below.Relocates (ρ : Relocation) (src src' : Placed) (below below' : Below) : Prop where
  expr : ∀ c, ρ.Fits src src' c → Lower.Relocates ρ (below.expr c) (below'.expr c) (Expr.relocate ρ)
  stmt : ∀ c, ρ.Fits src src' c → Lower.Relocates ρ (below.stmt c) (below'.stmt c) (Stmt.relocate ρ)

namespace Lowering

open Concrete Lower

variable {ρ : Relocation} {src src' : Placed} {n : Concrete} {below below' : Below} {f : String}

/-! ## Parts that nothing lies below -/

section Leaves

variable (hρ : ρ.Fits src src' n)

include hρ

theorem relocates_takeDoc : Relocates ρ (takeDoc src n) (takeDoc src' n)
    (Option.map (CommentGroup.relocate ρ)) := by
  intro pool
  rw [takeDoc, takeDoc, hρ.startRow]
  exact CommentPool.takeDoc_relocate pool _ _

theorem relocates_takeLine : Relocates ρ (takeLine src n) (takeLine src' n)
    (Option.map (CommentGroup.relocate ρ)) := by
  intro pool
  rw [takeLine, takeLine, hρ.endRow]
  exact CommentPool.takeLine_relocate pool _ _

theorem relocate_ident : (ident src n).relocate ρ = ident src' n := by
  simp only [ident, Ident.relocate, hρ.span, hρ.text]

theorem relocate_basicLit : (basicLit src n).relocate ρ = basicLit src' n := by
  simp only [basicLit, BasicLit.relocate, hρ.span, hρ.text]

theorem relocate_point :
    (Span.point (src.pos n.stop)).relocate ρ = Span.point (src'.pos n.stop) := by
  rw [Span.relocate, Span.point, Span.point, hρ.stop]

theorem relocate_badExpr : (Expr.bad (src.span n)).relocate ρ = .bad (src'.span n) := by
  rw [Expr.relocate, hρ.span]

/-- An absent name is empty at either base. -/
theorem relocate_identIn : (identIn src n f).relocate ρ = identIn src' n f := by
  unfold identIn
  split
  · rename_i c hc
    exact relocate_ident (hρ.of_child (mem_children_of_child? hc))
  · simp only [Ident.relocate, Span.relocate, Span.point, hρ.start]
    exact congrArg _ (hρ.noNames n n.mem_preorder_self)

theorem relocate_namesIn : (namesIn src n f).map (Ident.relocate ρ) = namesIn src' n f := by
  rw [namesIn, namesIn, List.map_map]
  refine List.map_congr_left ?_
  intro c hc
  exact relocate_ident (hρ.of_child (mem_children_of_partsIn hc))

theorem relocate_litIn : ((n.child? f).map (basicLit src)).map (BasicLit.relocate ρ) =
    (n.child? f).map (basicLit src') := by
  cases hc : n.child? f with
  | none => rfl
  | some c => exact congrArg some (relocate_basicLit (hρ.of_child (mem_children_of_child? hc)))

/-- The braces of a node are children of it. -/
theorem relocate_braceSpan : (braceSpan src n).relocate ρ = braceSpan src' n := by
  unfold braceSpan
  split
  · rename_i o c ho hc
    have hc : c ∈ n.children := (List.mem_filter.1 (List.mem_of_mem_getLast? hc)).1
    rw [Span.relocate, (hρ.of_child (List.mem_of_find?_eq_some ho)).start, (hρ.of_child hc).stop]
  · exact hρ.span

theorem relocate_paramType (type : Expr) :
    (paramType src n type).relocate ρ = paramType src' n (type.relocate ρ) := by
  unfold paramType
  split
  · split
    · rename_i dots hdots
      have hdots := hρ.of_child (List.mem_of_find?_eq_some hdots)
      simp [Expr.relocate, Span.relocate, hdots.start]
    · rfl
  · rfl

theorem relocate_embeddedType (names : List Ident) (type : Expr) :
    (embeddedType src n names type).relocate ρ =
      embeddedType src' n (names.map (Ident.relocate ρ)) (type.relocate ρ) := by
  unfold embeddedType
  rw [List.isEmpty_map]
  split
  · split
    · rename_i star hstar
      have hstar := hρ.of_child (List.mem_of_find?_eq_some hstar)
      simp [Expr.relocate, Span.relocate, hstar.start]
    · rfl
  · rfl

theorem relocate_countedLength : (countedLength src n).relocate ρ = countedLength src' n := by
  unfold countedLength
  split
  · rename_i dots hdots
    have hdots := hρ.of_child (List.mem_of_find?_eq_some hdots)
    simp [Expr.relocate, hdots.span]
  · simp [Expr.relocate, hρ.span]

end Leaves

theorem relocate_instantiate (s : Span) (x : Expr) (indices : List Expr) :
    (instantiate s x indices).relocate ρ =
      instantiate (s.relocate ρ) (x.relocate ρ) (indices.map (Expr.relocate ρ)) := by
  cases indices with
  | nil => simp [instantiate, Expr.relocate]
  | cons i is => cases is <;> simp [instantiate, Expr.relocate]

/-! ## The parts that are lowered below -/

/-- What may stand in a field is relocated if a node in it is. -/
theorem relocates_optional {α : Type} {lower lower' : Concrete → Lower α} {move : α → α}
    (h : ∀ c ∈ n.children, Relocates ρ (lower c) (lower' c) move) :
    Relocates ρ
      (match n.child? f with
        | some c => some <$> lower c
        | none => pure none)
      (match n.child? f with
        | some c => some <$> lower' c
        | none => pure none) (Option.map move) := by
  cases hc : n.child? f with
  | some c => exact (h c (mem_children_of_child? hc)).map fun a => rfl
  | none => exact .pure rfl

/-- A list of fields is relocated if its members are. -/
theorem relocates_members {member member' : Concrete → Lower Field} {s s' : Span}
    (hs : s.relocate ρ = s') (h : ∀ c ∈ n.children, Relocates ρ (member c) (member' c)
      (Field.relocate ρ)) :
    Relocates ρ (do let list ← n.parts.mapM member; return ⟨s, list⟩)
      (do let list ← n.parts.mapM member'; return ⟨s', list⟩) (FieldList.relocate ρ) := by
  refine (Relocates.mapM fun c hc => h c (mem_children_of_part hc)).bind fun list => .pure ?_
  simp [FieldList.relocate, hs]

section Parts

variable (hρ : ρ.Fits src src' n) (hb : below.Relocates ρ src src' below')

include hρ hb

theorem relocates_exprOf {c : Option Concrete} (h : ∀ d ∈ c, d ∈ n.children) :
    Relocates ρ (exprOf src below n c) (exprOf src' below' n c) (Expr.relocate ρ) := by
  cases c with
  | none => exact .pure (relocate_badExpr hρ)
  | some c => exact hb.expr c (hρ.of_child (h c rfl))

theorem relocates_exprIn :
    Relocates ρ (exprIn src below n f) (exprIn src' below' n f) (Expr.relocate ρ) :=
  relocates_exprOf hρ hb fun _ => mem_children_of_child?

theorem relocates_firstExpr :
    Relocates ρ (firstExpr src below n) (firstExpr src' below' n) (Expr.relocate ρ) :=
  relocates_exprOf hρ hb fun _ hc => mem_children_of_part (List.mem_of_mem_head? hc)

theorem relocates_exprIn? :
    Relocates ρ (exprIn? below n f) (exprIn? below' n f) (Option.map (Expr.relocate ρ)) :=
  relocates_optional fun c hc => hb.expr c (hρ.of_child hc)

theorem relocates_exprEach {ns : List Concrete} (h : ∀ c ∈ ns, c ∈ n.preorder) :
    Relocates ρ (exprEach below ns) (exprEach below' ns) (List.map (Expr.relocate ρ)) :=
  .mapM fun c hc => hb.expr c (hρ.of_mem (h c hc))

theorem relocates_parts :
    Relocates ρ (exprEach below n.parts) (exprEach below' n.parts) (List.map (Expr.relocate ρ)) :=
  relocates_exprEach hρ hb fun _ hc => mem_preorder_of_child (mem_children_of_part hc)

/-- The parts of a list that stands in a field. -/
theorem relocates_partsOf {list : Concrete} (hl : n.child? f = some list) :
    Relocates ρ (exprEach below list.parts) (exprEach below' list.parts)
      (List.map (Expr.relocate ρ)) :=
  relocates_exprEach hρ hb fun _ hc =>
    mem_preorder_of_descendant (mem_descendants_of_part_in hl hc)

theorem relocates_exprs :
    Relocates ρ (exprs below n) (exprs below' n) (List.map (Expr.relocate ρ)) := by
  unfold exprs
  split
  · exact relocates_parts hρ hb
  · exact (hb.expr n hρ).bind fun x => .pure rfl

theorem relocates_exprsIn :
    Relocates ρ (exprsIn below n f) (exprsIn below' n f) (List.map (Expr.relocate ρ)) := by
  unfold exprsIn
  cases hc : n.child? f with
  | some c => exact relocates_exprs (hρ.of_child (mem_children_of_child? hc)) hb
  | none => exact .pure rfl

theorem relocates_stmtIn? :
    Relocates ρ (stmtIn? below n f) (stmtIn? below' n f) (Option.map (Stmt.relocate ρ)) :=
  relocates_optional fun c hc => hb.stmt c (hρ.of_child hc)

theorem relocates_flattened {ns : List Concrete} (h : ∀ c ∈ ns, c ∈ n.children) :
    Relocates ρ (stmtEach below (flattened ns)) (stmtEach below' (flattened ns))
      (List.map (Stmt.relocate ρ)) := by
  refine .mapM fun c hc => hb.stmt c ?_
  obtain ⟨d, hd, hcd⟩ := mem_preorder_of_flattened hc
  exact (hρ.of_child (h d hd)).of_mem hcd

/-! ## Blocks -/

theorem relocates_block :
    Relocates ρ (block src below n) (block src' below' n) (BlockStmt.relocate ρ) := by
  refine (relocates_flattened hρ hb fun c hc => mem_children_of_part hc).bind fun ss => .pure ?_
  simp [BlockStmt.relocate, hρ.span]

theorem relocates_blockIn :
    Relocates ρ (blockIn src below n f) (blockIn src' below' n f) (BlockStmt.relocate ρ) := by
  unfold blockIn
  cases hc : n.child? f with
  | some c => exact relocates_block (hρ.of_child (mem_children_of_child? hc)) hb
  | none =>
    refine .pure ?_
    simp [emptyBlock, BlockStmt.relocate, relocate_point hρ]

/-! ## Field lists -/

theorem relocates_param :
    Relocates ρ (param src below n) (param src' below' n) (Field.relocate ρ) := by
  refine (relocates_exprIn hρ hb).bind fun type => .pure ?_
  simp [Field.relocate, hρ.span, relocate_namesIn hρ, relocate_paramType hρ]

theorem relocates_params :
    Relocates ρ (params src below n) (params src' below' n) (FieldList.relocate ρ) :=
  relocates_members hρ.span fun _ hc => relocates_param (hρ.of_child hc) hb

theorem relocates_paramsIn? : Relocates ρ (paramsIn? src below n f) (paramsIn? src' below' n f)
    (Option.map (FieldList.relocate ρ)) :=
  relocates_optional fun _ hc => relocates_params (hρ.of_child hc) hb

/-- A result that stands alone has the span of its field and of the list. -/
theorem relocates_results :
    Relocates ρ (results src below n) (results src' below' n) (FieldList.relocate ρ) := by
  unfold results
  split
  · exact relocates_params hρ hb
  · refine (hb.expr n hρ).bind fun type => .pure ?_
    simp [FieldList.relocate, Field.relocate, hρ.span]

theorem relocates_paramsOf :
    Relocates ρ (paramsOf src below n) (paramsOf src' below' n) (FieldList.relocate ρ) := by
  unfold paramsOf
  cases hc : n.child? "parameters" with
  | some c => exact relocates_params (hρ.of_child (mem_children_of_child? hc)) hb
  | none =>
    refine .pure ?_
    simp [FieldList.relocate, hρ.span]

theorem relocates_resultsOf : Relocates ρ (resultsOf src below n) (resultsOf src' below' n)
    (Option.map (FieldList.relocate ρ)) :=
  relocates_optional fun _ hc => relocates_results (hρ.of_child hc) hb

/-- A signature ends where its results end, or its parameters if it has none. -/
theorem relocates_signature {start start' : UInt32} (hstart : ρ.pos start = start') :
    Relocates ρ (signature src below n start) (signature src' below' n start')
      (FuncType.relocate ρ) := by
  refine (relocates_paramsIn? hρ hb).bind fun typeParams => ?_
  refine (relocates_paramsOf hρ hb).bind fun params => ?_
  refine (relocates_resultsOf hρ hb).bind fun results => .pure ?_
  cases results <;> simp [FuncType.relocate, Span.relocate, hstart]

theorem relocates_structField :
    Relocates ρ (structField src below n) (structField src' below' n) (Field.relocate ρ) := by
  refine (relocates_takeDoc hρ).bind fun doc => ?_
  refine (relocates_exprIn hρ hb).bind fun type => ?_
  refine (relocates_takeLine hρ).bind fun line => .pure ?_
  simp only [Field.relocate, hρ.span, relocate_embeddedType hρ, relocate_namesIn hρ,
    relocate_litIn hρ]

theorem relocates_structFields :
    Relocates ρ (structFields src below n) (structFields src' below' n) (FieldList.relocate ρ) :=
  relocates_members hρ.span fun _ hc => relocates_structField (hρ.of_child hc) hb

omit hb in
/-- The signature of a method begins at its parameters, which are a child of it. -/
theorem relocate_methodStart : ρ.pos (src.pos (methodStart n)) = src'.pos (methodStart n) := by
  unfold methodStart
  split
  · rename_i c hc
    exact (hρ.of_child (mem_children_of_child? hc)).start
  · exact hρ.start

theorem relocates_elementType : Relocates ρ (elementType src below n) (elementType src' below' n)
    (Prod.map (List.map (Ident.relocate ρ)) (Expr.relocate ρ)) := by
  unfold elementType
  split
  · refine (relocates_signature hρ hb (relocate_methodStart hρ)).bind fun type => .pure ?_
    simp [Expr.relocate, relocate_identIn hρ]
  · exact (hb.expr n hρ).bind fun type => .pure rfl

theorem relocates_element :
    Relocates ρ (element src below n) (element src' below' n) (Field.relocate ρ) := by
  refine (relocates_takeDoc hρ).bind fun doc => ?_
  refine (relocates_elementType hρ hb).bind fun r => ?_
  refine (relocates_takeLine hρ).bind fun line => .pure ?_
  simp [Field.relocate, hρ.span]

theorem relocates_elements :
    Relocates ρ (elements src below n) (elements src' below' n) (FieldList.relocate ρ) :=
  relocates_members (relocate_braceSpan hρ) fun _ hc => relocates_element (hρ.of_child hc) hb

/-! ## Expressions -/

theorem relocates_callee :
    Relocates ρ (callee src below n) (callee src' below' n) (Expr.relocate ρ) := by
  refine (relocates_exprIn hρ hb).bind fun fn => ?_
  cases ht : n.child? "type_arguments" with
  | some targs =>
    refine (relocates_partsOf hρ hb ht).bind fun indices => .pure ?_
    have hstop := (hρ.of_child (mem_children_of_child? ht)).stop
    simp [relocate_instantiate, Span.relocate, hstop]
  | none => exact .pure rfl

theorem relocates_call :
    Relocates ρ (call src below n) (call src' below' n) (Expr.relocate ρ) := by
  refine (relocates_callee hρ hb).bind fun fn => ?_
  cases hl : n.child? "arguments" with
  | some list =>
    refine (relocates_partsOf hρ hb hl).bind fun args => .pure ?_
    simp [Expr.relocate, hρ.span]
  | none =>
    refine .pure ?_
    simp [Expr.relocate, hρ.span]

omit hρ hb in
/-- Terms that are joined cover what their ends cover. -/
theorem relocate_joined (ys : List Expr) (x : Expr) :
    (ys.foldl (fun x y => .binary (Span.cover x.span y.span) x "|" y) x).relocate ρ =
      (ys.map (Expr.relocate ρ)).foldl (fun x y => .binary (Span.cover x.span y.span) x "|" y)
        (x.relocate ρ) := by
  induction ys generalizing x with
  | nil => rfl
  | cons y ys ih =>
    rw [List.foldl_cons, ih, List.map_cons, List.foldl_cons]
    simp [Expr.relocate, Span.relocate_cover]

theorem relocates_union :
    Relocates ρ (union src below n) (union src' below' n) (Expr.relocate ρ) := by
  refine (relocates_parts hρ hb).bind fun es => ?_
  cases es with
  | nil => exact .pure (relocate_badExpr hρ)
  | cons first rest => exact .pure (relocate_joined rest first)

theorem relocates_keyed :
    Relocates ρ (keyed src below n) (keyed src' below' n) (Expr.relocate ρ) := by
  have hchild : ∀ {f : String} {i : Nat}, ∀ c ∈ (n.child? f <|> n.parts[i]?), c ∈ n.children := by
    intro f i c hc
    cases hf : n.child? f with
    | some d =>
      rw [hf] at hc
      cases hc
      exact mem_children_of_child? hf
    | none =>
      rw [hf] at hc
      exact mem_children_of_part (List.mem_of_getElem? hc)
  refine (relocates_exprOf hρ hb hchild).bind fun k => ?_
  refine (relocates_exprOf hρ hb hchild).bind fun v => .pure ?_
  simp [Expr.relocate, hρ.span]

theorem relocates_funcLit :
    Relocates ρ (funcLit src below n) (funcLit src' below' n) (Expr.relocate ρ) := by
  refine (relocates_signature hρ hb hρ.start).bind fun t => ?_
  refine (relocates_blockIn hρ hb).bind fun b => .pure ?_
  simp [Expr.relocate, hρ.span]

theorem relocates_compositeLit :
    Relocates ρ (compositeLit src below n) (compositeLit src' below' n) (Expr.relocate ρ) := by
  refine (relocates_exprIn hρ hb).bind fun t => ?_
  cases hbody : n.child? "body" with
  | some body =>
    refine (relocates_partsOf hρ hb hbody).bind fun elts => .pure ?_
    simp [Expr.relocate, hρ.span]
  | none =>
    refine .pure ?_
    simp [Expr.relocate, hρ.span]

theorem relocates_genericType :
    Relocates ρ (genericType src below n) (genericType src' below' n) (Expr.relocate ρ) := by
  refine (relocates_exprIn hρ hb).bind fun x => ?_
  cases ht : n.child? "type_arguments" with
  | some targs =>
    refine (relocates_partsOf hρ hb ht).bind fun indices => .pure ?_
    rw [relocate_instantiate, hρ.span]
  | none =>
    refine .pure ?_
    rw [relocate_instantiate, hρ.span, List.map_nil]

theorem relocates_structType :
    Relocates ρ (structType src below n) (structType src' below' n) (Expr.relocate ρ) := by
  unfold structType
  cases hl : n.parts.head? with
  | some list =>
    have hlist := hρ.of_child (mem_children_of_part (List.mem_of_mem_head? hl))
    refine (relocates_structFields hlist hb).bind fun fields => .pure ?_
    simp [Expr.relocate, hρ.span]
  | none =>
    refine .pure ?_
    simp [Expr.relocate, FieldList.relocate, hρ.span]

theorem relocates_unary :
    Relocates ρ (unary src below n) (unary src' below' n) (Expr.relocate ρ) := by
  refine (relocates_exprIn hρ hb).bind fun x => ?_
  by_cases hstar : (operator n == "*") = true
  · rw [if_pos hstar, if_pos hstar]
    exact .pure (by rw [Expr.relocate, hρ.span])
  · rw [if_neg hstar, if_neg hstar]
    exact .pure (by rw [Expr.relocate, hρ.span])

/-- **Step.** An expression is relocated at the other base, if this is so below. -/
theorem relocates_expr : Relocates ρ (Lowering.expr src below n) (Lowering.expr src' below' n)
    (Expr.relocate ρ) := by
  unfold Lowering.expr
  cases hf : ExprForm.ofKind n.kind with
  | name => exact .pure (congrArg Expr.ident (relocate_ident hρ))
  | literal => exact .pure (congrArg Expr.basicLit (relocate_basicLit hρ))
  | unknown => exact .pure (relocate_badExpr hρ)
  | funcLit => exact relocates_funcLit hρ hb
  | compositeLit => exact relocates_compositeLit hρ hb
  | wrapper => exact relocates_firstExpr hρ hb
  | keyed => exact relocates_keyed hρ hb
  | generic => exact relocates_genericType hρ hb
  | call => exact relocates_call hρ hb
  | unary => exact relocates_unary hρ hb
  | union => exact relocates_union hρ hb
  | struct => exact relocates_structType hρ hb
  | function => exact (relocates_signature hρ hb hρ.start).bind fun t => .pure rfl
  | paren | negated | pointer =>
    refine (relocates_firstExpr hρ hb).bind fun x => .pure ?_
    simp [Expr.relocate, hρ.span]
  | literalValue =>
    refine (relocates_parts hρ hb).bind fun es => .pure ?_
    simp [Expr.relocate, hρ.span]
  | selector =>
    refine (relocates_exprIn hρ hb).bind fun x => .pure ?_
    simp [Expr.relocate, hρ.span, relocate_identIn hρ]
  | sliceType | channel =>
    refine (relocates_exprIn hρ hb).bind fun x => .pure ?_
    simp [Expr.relocate, hρ.span]
  | index =>
    refine (relocates_exprIn hρ hb).bind fun x => ?_
    refine (relocates_exprEach hρ hb fun c hc =>
      mem_preorder_of_child (mem_children_of_partsIn hc)).bind fun is => .pure ?_
    rw [relocate_instantiate, hρ.span]
  | instantiation =>
    refine (relocates_exprIn hρ hb).bind fun x => ?_
    refine (relocates_exprEach hρ hb fun c hc =>
      mem_preorder_of_child (mem_children_of_partsBeside hc)).bind fun is => .pure ?_
    rw [relocate_instantiate, hρ.span]
  | slice =>
    refine (relocates_exprIn hρ hb).bind fun x => (relocates_exprIn? hρ hb).bind fun low => ?_
    refine (relocates_exprIn? hρ hb).bind fun high => ?_
    refine (relocates_exprIn? hρ hb).bind fun max => .pure ?_
    simp [Expr.relocate, hρ.span]
  | typeAssert =>
    refine (relocates_exprIn hρ hb).bind fun x => ?_
    refine (relocates_exprIn? hρ hb).bind fun type => .pure ?_
    simp [Expr.relocate, hρ.span]
  | conversion | binary | array | map =>
    refine (relocates_exprIn hρ hb).bind fun x => (relocates_exprIn hρ hb).bind fun y => .pure ?_
    simp [Expr.relocate, hρ.span]
  | countedArray =>
    refine (relocates_exprIn hρ hb).bind fun x => .pure ?_
    simp [Expr.relocate, hρ.span, relocate_countedLength hρ]
  | interface =>
    refine (relocates_elements hρ hb).bind fun l => .pure ?_
    simp [Expr.relocate, hρ.span]
  | qualified =>
    refine .pure ?_
    simp [Expr.relocate, hρ.span, relocate_identIn hρ]

end Parts

end Lowering

end UniformTree
