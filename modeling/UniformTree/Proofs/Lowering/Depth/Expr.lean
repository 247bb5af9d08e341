import UniformTree.Proofs.Concrete.Reach
import UniformTree.Proofs.Lowering.Yields
import UniformTree.Proofs.Tree.Levels
/-!
# How deep expressions go

Nothing that is lowered from a node has more levels than the node has reach, if each level of the
concrete tree is given at least four. Here this is carried through fields and expressions, given
that it holds below.
-/

namespace UniformTree

/-- Nothing that is lowered below has more levels than its node has reach. -/
structure Below.Flat (o : BuildOptions) (w : Nat) (below : Below) : Prop where
  expr : ∀ c, (below.expr c).Yields fun x => (Node.expr x).levels o ≤ c.reach w
  stmt : ∀ c, (below.stmt c).Yields fun s => (Node.stmt s).levels o ≤ c.reach w

namespace Lowering

open Concrete Lower

variable {o : BuildOptions} {w : Nat} {src : Placed} {below : Below} {n : Concrete} {f : String}

/-! ## The parts that are lowered below -/

section Parts

variable (hw : 4 ≤ w) (hb : below.Flat o w)

include hw hb

theorem levels_expr_below : ∀ c ∈ n.descendants,
    (below.expr c).Yields fun x => (Node.expr x).levels o + 4 ≤ n.reach w := fun c hc =>
  (hb.expr c).imp fun x hx => by have := reach_descendant (w := w) hc; omega

theorem levels_stmt_below : ∀ c ∈ n.descendants,
    (below.stmt c).Yields fun s => (Node.stmt s).levels o + 4 ≤ n.reach w := fun c hc =>
  (hb.stmt c).imp fun x hx => by have := reach_descendant (w := w) hc; omega

/-- An absent child is a bad expression, which has one level. -/
theorem levels_child : ∀ c ∈ n.children,
    (below.expr c).Yields fun x => (Node.expr x).levels o ≤ max 1 (n.reach w - 4) := fun c hc =>
  (levels_expr_below hw hb c (mem_descendants_of_child hc)).imp fun x hx => by omega

theorem levels_exprIn : (exprIn src below n f).Yields fun x =>
    (Node.expr x).levels o ≤ max 1 (n.reach w - 4) :=
  yields_exprIn (levels_child hw hb) (Nat.le_max_left _ _)

theorem levels_firstExpr : (firstExpr src below n).Yields fun x =>
    (Node.expr x).levels o ≤ max 1 (n.reach w - 4) :=
  yields_firstExpr (levels_child hw hb) (Nat.le_max_left _ _)

theorem levels_exprIn? : (exprIn? below n f).Yields fun x =>
    ∀ e ∈ x, (Node.expr e).levels o + 4 ≤ n.reach w :=
  yields_exprIn? fun c hc => levels_expr_below hw hb c (mem_descendants_of_child hc)

theorem levels_exprEach {ns : List Concrete} (h : ∀ c ∈ ns, c ∈ n.descendants) :
    (exprEach below ns).Yields fun es => ∀ e ∈ es, (Node.expr e).levels o + 4 ≤ n.reach w :=
  (yields_exprEach fun c hc => levels_expr_below hw hb c (h c hc)).imp fun _ hes => hes.2

/-- The parts of a list that stands in a field. -/
theorem levels_partsOf {list : Concrete} (hl : n.child? f = some list) :
    (exprEach below list.parts).Yields fun es =>
      ∀ e ∈ es, (Node.expr e).levels o + 4 ≤ n.reach w :=
  levels_exprEach hw hb fun _ => mem_descendants_of_part_in hl

theorem levels_exprs {c : Concrete} (h : c ∈ n.children) :
    (exprs below c).Yields fun es => ∀ e ∈ es, (Node.expr e).levels o + 4 ≤ n.reach w :=
  (yields_exprs fun d hd => levels_expr_below hw hb d (mem_descendants.2 ⟨c, h, hd⟩)).imp
    fun _ hes => hes.2

theorem levels_exprsIn : (exprsIn below n f).Yields fun es =>
    ∀ e ∈ es, (Node.expr e).levels o + 4 ≤ n.reach w :=
  yields_exprsIn (levels_expr_below hw hb)

theorem levels_stmtIn? : (stmtIn? below n f).Yields fun x =>
    ∀ s ∈ x, (Node.stmt s).levels o + 4 ≤ n.reach w :=
  yields_stmtIn? fun c hc => levels_stmt_below hw hb c (mem_descendants_of_child hc)

theorem levels_flattened {ns : List Concrete} (h : ∀ c ∈ ns, c ∈ n.children) :
    (stmtEach below (flattened ns)).Yields fun ss =>
      ∀ s ∈ ss, (Node.stmt s).levels o + 4 ≤ n.reach w := by
  refine yields_flattened fun c hc => levels_stmt_below hw hb c ?_
  obtain ⟨d, hd, hcd⟩ := mem_preorderAll.1 hc
  exact mem_descendants.2 ⟨d, h d hd, hcd⟩

/-! ## Blocks -/

theorem levels_block : (block src below n).Yields fun b =>
    (Node.block b).levels o + 3 ≤ n.reach w := by
  have hn := le_reach w n
  refine (levels_flattened hw hb fun c hc => mem_children_of_part hc).bind fun ss hss => .pure ?_
  suffices (Node.block ⟨src.span n, ss⟩).levels o ≤ n.reach w - 3 by omega
  refine Node.levels_le (by omega) (List.forall_mem_map.2 ?_)
  intro s hs
  have := hss s hs
  omega

theorem levels_blockIn : (blockIn src below n f).Yields fun b =>
    (Node.block b).levels o + 3 ≤ n.reach w := by
  have hn := le_reach w n
  unfold blockIn
  split
  · rename_i c hc
    have := reach_child (w := w) (mem_children_of_child? hc)
    exact (levels_block hw hb).imp fun b hbl => by omega
  · refine .pure ?_
    have : (Node.block (emptyBlock src n)).levels o = 1 := rfl
    omega

/-! ## Field lists -/

omit hw hb in
/-- A list of fields has one level more than its members. -/
theorem levels_members {member : Concrete → Lower Field} {s : Span} {k r : Nat} (hk : k < r)
    (h : ∀ c ∈ n.children, (member c).Yields fun fd => (Node.field fd).levels o + k < r) :
    Yields (do let list ← n.parts.mapM member; return ⟨s, list⟩) fun l =>
      (Node.fieldList l).levels o + k ≤ r := by
  refine (Yields.mapM fun c hc => h c (mem_children_of_part hc)).bind fun list hlist => .pure ?_
  refine Nat.add_le_of_le_sub (by omega) (Node.levels_fieldList (by omega) fun fd hfd => ?_)
  have := hlist.2 fd hfd
  omega

omit hw hb in
/-- An ellipsis may stand over the type of a parameter. -/
theorem levels_paramType (type : Expr) :
    (Node.expr (paramType src n type)).levels o ≤ (Node.expr type).levels o + 1 := by
  unfold paramType
  split
  · split
    · exact Node.levels_le (by omega) (by simp [Node.children, Node.ofExpr])
    · omega
  · omega

theorem levels_param : (param src below n).Yields fun fd =>
    (Node.field fd).levels o + 1 ≤ n.reach w := by
  have hn := le_reach w n
  refine (levels_exprIn hw hb).bind fun type htype => .pure ?_
  have hparam : (Node.expr (paramType src n type)).levels o ≤ (Node.expr type).levels o + 1 :=
    levels_paramType type
  exact Nat.add_le_of_le_sub (by omega) (Node.levels_field (by omega) (by omega))

theorem levels_params : (params src below n).Yields fun l =>
    (Node.fieldList l).levels o + 3 ≤ n.reach w := by
  have hn := le_reach w n
  refine levels_members (by omega) fun c hc => (levels_param hw hb).imp fun fd hfd => ?_
  have := reach_child (w := w) hc
  omega

theorem levels_paramsIn? : (paramsIn? src below n f).Yields fun x =>
    ∀ l ∈ x, (Node.fieldList l).levels o + 7 ≤ n.reach w := by
  refine yields_optional fun c hc => (levels_params hw hb).imp fun l hl => ?_
  have := reach_child (w := w) hc
  omega

/-- Results that stand alone take a field and a list of their own. -/
theorem levels_results : (results src below n).Yields fun l =>
    (Node.fieldList l).levels o ≤ n.reach w + 2 := by
  have hn := le_reach w n
  unfold results
  split
  · exact (levels_params hw hb).imp fun l hl => by omega
  · refine (hb.expr n).bind fun type htype => .pure ?_
    have hfield : (Node.field ⟨src.span n, none, [], type, none, none⟩).levels o ≤ n.reach w + 1 :=
      Node.levels_field (by omega) (by omega)
    exact Node.levels_fieldList (by omega) (List.forall_mem_singleton.2 (by omega))

theorem levels_paramsOf : (paramsOf src below n).Yields fun l =>
    (Node.fieldList l).levels o + 3 ≤ n.reach w := by
  have hn := le_reach w n
  unfold paramsOf
  split
  · rename_i c hc
    have := reach_child (w := w) (mem_children_of_child? hc)
    exact (levels_params hw hb).imp fun l hl => by omega
  · refine .pure ?_
    have : (Node.fieldList ⟨src.span n, []⟩).levels o = 1 := rfl
    omega

theorem levels_resultsOf : (resultsOf src below n).Yields fun x =>
    ∀ l ∈ x, (Node.fieldList l).levels o + 2 ≤ n.reach w := by
  refine yields_optional fun c hc => (levels_results hw hb).imp fun l hl => ?_
  have := reach_child (w := w) hc
  omega

theorem levels_signature {start : UInt32} : (signature src below n start).Yields fun t =>
    (Node.funcType t).levels o + 1 ≤ n.reach w := by
  have hn := le_reach w n
  refine (levels_paramsIn? hw hb).bind fun typeParams htypeParams => ?_
  refine (levels_paramsOf hw hb).bind fun params hparams => ?_
  refine (levels_resultsOf hw hb).bind fun results hresults => .pure ?_
  refine Nat.add_le_of_le_sub (by omega) (Node.levels_le (by omega) ?_)
  simp only [Node.children, Node.ofExpr, List.forall_mem_append, List.forall_mem_cons,
    Node.forall_mem_slot]
  refine ⟨fun l hl => ?_, by omega, fun l hl => ?_⟩
  · have := htypeParams l hl
    omega
  · have := hresults l hl
    omega

omit hw hb in
/-- A star may stand over the type of a field of a struct. -/
theorem levels_embeddedType (names : List Ident) (type : Expr) :
    (Node.expr (embeddedType src n names type)).levels o ≤ (Node.expr type).levels o + 1 := by
  unfold embeddedType
  split
  · split
    · exact Node.levels_le (by omega) (by simp [Node.children, Node.ofExpr])
    · omega
  · omega

theorem levels_structField : (structField src below n).Yields fun fd =>
    (Node.field fd).levels o + 1 ≤ n.reach w := by
  have hn := le_reach w n
  refine (Yields.trivial _).bind fun doc _ => ?_
  refine (levels_exprIn hw hb).bind fun type htype => ?_
  refine (Yields.trivial _).bind fun line _ => .pure ?_
  have hstar : (Node.expr (embeddedType src n (namesIn src n "name") type)).levels o ≤
      (Node.expr type).levels o + 1 := levels_embeddedType _ type
  exact Nat.add_le_of_le_sub (by omega) (Node.levels_field (by omega) (by omega))

theorem levels_structFields : (structFields src below n).Yields fun l =>
    (Node.fieldList l).levels o + 3 ≤ n.reach w := by
  have hn := le_reach w n
  refine levels_members (by omega) fun c hc => (levels_structField hw hb).imp fun fd hfd => ?_
  have := reach_child (w := w) hc
  omega

/-- A type that stands alone is lowered from the same node as its field. -/
theorem levels_element : (element src below n).Yields fun fd =>
    (Node.field fd).levels o ≤ n.reach w + 1 := by
  have hn := le_reach w n
  refine (Yields.trivial _).bind fun doc _ => ?_
  refine Yields.bind (P := fun r => (Node.expr r.2).levels o ≤ n.reach w) ?_ fun r hr =>
    (Yields.trivial _).bind fun line _ => .pure (Node.levels_field (by omega) (by omega))
  unfold elementType
  split
  · exact (levels_signature hw hb).bind fun t ht => .pure (Nat.le_of_succ_le ht)
  · exact (hb.expr n).bind fun x hx => .pure hx

theorem levels_elements : (elements src below n).Yields fun l =>
    (Node.fieldList l).levels o + 2 ≤ n.reach w := by
  have hn := le_reach w n
  refine levels_members (by omega) fun c hc => (levels_element hw hb).imp fun fd hfd => ?_
  have := reach_child (w := w) hc
  omega

/-! ## Expressions -/

omit hw hb in
theorem levels_instantiate {s : Span} {x : Expr} {indices : List Expr} {k : Nat}
    (hx : (Node.expr x).levels o < k) (hi : ∀ i ∈ indices, (Node.expr i).levels o + 1 < k) :
    (Node.expr (instantiate s x indices)).levels o ≤ k := by
  unfold instantiate
  split
  · have := hi _ List.mem_cons_self
    exact Node.levels_le (by omega) (by simp [Node.children, Node.ofExpr]; omega)
  · exact Node.levels_le (by omega) (List.forall_mem_cons.2 ⟨hx, Node.levels_listOf hi⟩)

theorem levels_callee : (callee src below n).Yields fun x =>
    (Node.expr x).levels o + 2 ≤ n.reach w := by
  have hn := le_reach w n
  refine (levels_exprIn hw hb).bind fun fn hfn => ?_
  split
  · rename_i targs ht
    refine (levels_partsOf hw hb ht).bind fun is his => .pure ?_
    refine Nat.add_le_of_le_sub (by omega) (levels_instantiate (by omega) fun i hi => ?_)
    have := his i hi
    omega
  · exact .pure (by omega)

theorem levels_call : (call src below n).Yields fun x => (Node.expr x).levels o ≤ n.reach w := by
  have hn := le_reach w n
  refine (levels_callee hw hb).bind fun fn hfn => ?_
  split
  · rename_i list hl
    refine (levels_partsOf hw hb hl).bind fun args hargs => .pure ?_
    refine Node.levels_le (by omega) (List.forall_mem_cons.2 ⟨by omega, ?_⟩)
    refine Node.levels_listOf ?_
    intro a ha
    have := hargs a ha
    omega
  · refine .pure (Node.levels_le (by omega) ?_)
    simp [Node.children, Node.ofExpr, Node.listOf]
    omega

theorem levels_keyed : (keyed src below n).Yields fun x => (Node.expr x).levels o ≤ n.reach w := by
  have hn := le_reach w n
  have hchild : ∀ {f : String} {i : Nat}, (exprOf src below n (n.child? f <|> n.parts[i]?)).Yields
      fun x => (Node.expr x).levels o ≤ max 1 (n.reach w - 4) := by
    intro f i
    refine yields_exprOf (fun c hc => levels_child hw hb c ?_) (Nat.le_max_left _ _)
    cases hf : n.child? f with
    | some d =>
      rw [hf] at hc
      cases hc
      exact mem_children_of_child? hf
    | none =>
      rw [hf] at hc
      exact mem_children_of_part (List.mem_of_getElem? hc)
  refine hchild.bind fun k hk => hchild.bind fun v hv => .pure ?_
  exact Node.levels_le (by omega) (by simp [Node.children, Node.ofExpr]; omega)

theorem levels_funcLit :
    (funcLit src below n).Yields fun x => (Node.expr x).levels o ≤ n.reach w := by
  have hn := le_reach w n
  refine (levels_signature hw hb).bind fun t ht => ?_
  refine (levels_blockIn hw hb).bind fun b hbl => .pure ?_
  exact Node.levels_le (by omega) (by simp [Node.children, Node.ofExpr]; omega)

theorem levels_compositeLit :
    (compositeLit src below n).Yields fun x => (Node.expr x).levels o ≤ n.reach w := by
  have hn := le_reach w n
  refine (levels_exprIn hw hb).bind fun t ht => ?_
  split
  · rename_i body hbody
    refine (levels_partsOf hw hb hbody).bind fun elts helts => .pure ?_
    refine Node.levels_le (by omega) (List.forall_mem_cons.2 ⟨by omega, ?_⟩)
    refine Node.levels_listOf ?_
    intro a ha
    have := helts a ha
    omega
  · refine .pure (Node.levels_le (by omega) ?_)
    simp [Node.children, Node.ofExpr, Node.listOf]
    omega

theorem levels_genericType :
    (genericType src below n).Yields fun x => (Node.expr x).levels o ≤ n.reach w := by
  have hn := le_reach w n
  refine (levels_exprIn hw hb).bind fun t ht => ?_
  split
  · rename_i targs hargs
    refine (levels_partsOf hw hb hargs).bind fun is his => .pure ?_
    refine levels_instantiate (by omega) fun i hi => ?_
    have := his i hi
    omega
  · exact .pure (levels_instantiate (by omega) (by simp))

theorem levels_structType :
    (structType src below n).Yields fun x => (Node.expr x).levels o ≤ n.reach w := by
  have hn := le_reach w n
  unfold structType
  split
  · rename_i list hl
    have := reach_child (w := w) (mem_children_of_part (List.mem_of_mem_head? hl))
    refine (levels_structFields hw hb).bind fun l hl => .pure ?_
    exact Node.levels_le (by omega) (by simp [Node.children, Node.ofExpr]; omega)
  · have : (Node.fieldList ⟨src.span n, []⟩).levels o = 1 := rfl
    exact .pure (Node.levels_le (by omega) (by simp [Node.children, Node.ofExpr]; omega))

theorem levels_unary : (unary src below n).Yields fun x => (Node.expr x).levels o ≤ n.reach w := by
  have hn := le_reach w n
  refine (levels_exprIn hw hb).bind fun x hx => ?_
  split <;> exact .pure (Node.levels_le (by omega) (by simp [Node.children, Node.ofExpr]; omega))

omit hw hb in
/-- Each term that is joined from the right adds a level. -/
theorem levels_joined {op : String} {cover : Expr → Expr → Span} {k : Nat} (ys : List Expr)
    (hy : ∀ y ∈ ys, (Node.expr y).levels o ≤ k) : ∀ {x : Expr}, (Node.expr x).levels o ≤ k →
      (Node.expr (ys.foldl (fun x y => .binary (cover x y) x op y) x)).levels o ≤
        k + ys.length := by
  induction ys generalizing k with
  | nil => intro x hx; exact hx
  | cons y ys ih =>
    intro x hx
    have hyk := hy y List.mem_cons_self
    have hjoin : (Node.expr (.binary (cover x y) x op y)).levels o ≤ k + 1 :=
      Node.levels_le (by omega) (by simp [Node.children, Node.ofExpr]; omega)
    have := ih (k := k + 1)
      (fun z hz => Nat.le_succ_of_le (hy z (List.mem_cons_of_mem y hz))) hjoin
    rw [List.foldl_cons, List.length_cons]
    omega

/-- A union of types has as many levels more than its terms as it has terms after the first. -/
theorem levels_union (hu : n.isUnion = true) :
    (union src below n).Yields fun x => (Node.expr x).levels o ≤ n.reach w := by
  have hn := le_reach w n
  refine (yields_exprEach (P := fun x =>
    (Node.expr x).levels o + max w (n.parts.length - 1) ≤ n.reach w) fun c hc => ?_).bind
      fun es hes => ?_
  · have := reach_child (w := w) (mem_children_of_part hc)
    rw [if_pos hu] at this
    exact (hb.expr c).imp fun x hx => by omega
  · obtain ⟨hlen, hes⟩ := hes
    split
    · exact .pure (by rw [Node.levels_badExpr]; omega)
    · rename_i first rest
      refine .pure ?_
      have hfirst := hes first List.mem_cons_self
      have hrest : ∀ y ∈ rest,
          (Node.expr y).levels o ≤ n.reach w - max w (n.parts.length - 1) := fun y hy => by
        have := hes y (List.mem_cons_of_mem first hy)
        omega
      have : (Node.expr (rest.foldl
          (fun x y => .binary (Span.cover x.span y.span) x "|" y) first)).levels o ≤
            n.reach w - max w (n.parts.length - 1) + rest.length :=
        levels_joined rest hrest (by omega)
      rw [List.length_cons] at hlen
      omega

/-- **Step.** An expression has no more levels than its node has reach, if this is so below. -/
theorem levels_expr : (Lowering.expr src below n).Yields fun x =>
    (Node.expr x).levels o ≤ n.reach w := by
  have hn := le_reach w n
  unfold Lowering.expr
  cases hf : ExprForm.ofKind n.kind with
  | name => exact .pure (by rw [Node.levels_ident]; omega)
  | literal => exact .pure (by rw [Node.levels_basicLit]; omega)
  | unknown => exact .pure (by rw [Node.levels_badExpr]; omega)
  | funcLit => exact levels_funcLit hw hb
  | compositeLit => exact levels_compositeLit hw hb
  | wrapper => exact (levels_firstExpr hw hb).imp fun x hx => by omega
  | keyed => exact levels_keyed hw hb
  | generic => exact levels_genericType hw hb
  | call => exact levels_call hw hb
  | unary => exact levels_unary hw hb
  | union => exact levels_union hw hb (by simp [isUnion, hf])
  | struct => exact levels_structType hw hb
  | function => exact (levels_signature hw hb).bind fun t ht => .pure (Nat.le_of_succ_le ht)
  | paren | negated | pointer =>
    refine (levels_firstExpr hw hb).bind fun x hx => .pure ?_
    exact Node.levels_le (by omega) (by simp [Node.children, Node.ofExpr]; omega)
  | literalValue =>
    refine (levels_exprEach hw hb fun c => mem_descendants_of_part).bind fun es hes => .pure ?_
    refine Node.levels_le (by omega) (Node.levels_listOf ?_)
    intro e he
    have := hes e he
    omega
  | selector | sliceType | channel =>
    refine (levels_exprIn hw hb).bind fun x hx => .pure ?_
    exact Node.levels_le (by omega) (by simp [Node.children, Node.ofExpr, Node.slot]; omega)
  | index =>
    refine (levels_exprIn hw hb).bind fun x hx => ?_
    refine (levels_exprEach hw hb fun c hc => mem_descendants_of_child
      (mem_children_of_partsIn hc)).bind fun is his => .pure ?_
    refine levels_instantiate (by omega) fun i hi => ?_
    have := his i hi
    omega
  | instantiation =>
    refine (levels_exprIn hw hb).bind fun x hx => ?_
    refine (levels_exprEach hw hb fun c hc => mem_descendants_of_child
      (mem_children_of_partsBeside hc)).bind fun is his => .pure ?_
    refine levels_instantiate (by omega) fun i hi => ?_
    have := his i hi
    omega
  | slice =>
    refine (levels_exprIn hw hb).bind fun x hx => ?_
    refine (levels_exprIn? hw hb).bind fun low hlow => ?_
    refine (levels_exprIn? hw hb).bind fun high hhigh => ?_
    refine (levels_exprIn? hw hb).bind fun max hmax => .pure ?_
    refine Node.levels_le (by omega) ?_
    simp only [Node.children, Node.ofExpr, List.forall_mem_cons, List.forall_mem_append,
      Node.forall_mem_slot]
    refine ⟨by omega, ⟨fun e he => ?_, fun e he => ?_⟩, fun e he => ?_⟩
    · have := hlow e he
      omega
    · have := hhigh e he
      omega
    · have := hmax e he
      omega
  | typeAssert =>
    refine (levels_exprIn hw hb).bind fun x hx => ?_
    refine (levels_exprIn? hw hb).bind fun type htype => .pure ?_
    refine Node.levels_le (by omega) (List.forall_mem_cons.2 ⟨by omega, ?_⟩)
    refine Node.forall_mem_slot.2 ?_
    intro e he
    have := htype e he
    omega
  | conversion =>
    refine (levels_exprIn hw hb).bind fun fn hfn => ?_
    refine (levels_exprIn hw hb).bind fun arg harg => .pure ?_
    refine Node.levels_le (by omega) (List.forall_mem_cons.2 ⟨by omega, ?_⟩)
    exact Node.levels_listOf (List.forall_mem_singleton.2 (by omega))
  | binary | array | map =>
    refine (levels_exprIn hw hb).bind fun x hx => ?_
    refine (levels_exprIn hw hb).bind fun y hy => .pure ?_
    exact Node.levels_le (by omega) (by simp [Node.children, Node.ofExpr, Node.slot]; omega)
  | countedArray =>
    refine (levels_exprIn hw hb).bind fun x hx => .pure ?_
    have : (Node.expr (countedLength src n)).levels o = 1 := by
      unfold countedLength
      split <;> rfl
    exact Node.levels_le (by omega) (by simp [Node.children, Node.ofExpr, Node.slot]; omega)
  | interface =>
    refine (levels_elements hw hb).bind fun l hl => .pure ?_
    exact Node.levels_le (by omega) (by simp [Node.children, Node.ofExpr]; omega)
  | qualified =>
    exact .pure (Node.levels_le (by omega) (by simp [Node.children, Node.ofExpr]; omega))

end Parts

end Lowering

end UniformTree
