import UniformTree.Proofs.Lowering.Spans.Fields
/-!
# Where expressions lie

What is lowered from a node as an expression is settled and sits in the span of the node, if this
holds below.
-/

namespace UniformTree

namespace Lowering

open Concrete Lower Node

variable {E : Prop} {src : Placed} {below : Below} {n : Concrete} {f : String}

section Parts

variable (hn : n.Regular E src) (hb : below.Settling E src)

/-- A type with arguments that stand in a row, and the span that it is given. -/
theorem settled_instantiate {s t : Span} {x : Expr} {is : List Expr}
    (hx : (Node.expr x).RestsIn E s) (his : SitInRow E t (is.map Node.expr))
    (hts : E → t.Inside s) : (Node.expr (instantiate s x is)).Settled E := by
  unfold instantiate
  split
  · rename_i i
    have hi := (his.sits (Node.expr i) (by simp)).rests.trans hts
    exact settled_of_rests rfl rfl (List.forall_mem_cons.2 ⟨hx, List.forall_mem_singleton.2 hi⟩)
  · refine settled_of_rests rfl rfl (List.forall_mem_cons.2 ⟨hx, ?_⟩)
    intro c hc
    exact (rests_listOf his c hc).trans hts

theorem span_instantiate (s : Span) (x : Expr) (is : List Expr) :
    (instantiate s x is).span = s := by
  unfold instantiate
  split <;> rfl

include hn

theorem sits_instantiate {x : Expr} {is : List Expr} (hx : (Node.expr x).SitsIn E (src.span n))
    (his : SitInRow E (src.span n) (is.map Node.expr)) :
    (Node.expr (instantiate (src.span n) x is)).SitsIn E (src.span n) where
  settled := settled_instantiate hx.rests his fun _ => hn.inside n.mem_preorder_self
  inside := by
    show (instantiate (src.span n) x is).span.Inside _
    rw [span_instantiate]
    exact hn.inside n.mem_preorder_self

include hb

/-- The function of a call, with its type arguments if it has any. -/
theorem rests_callee (hkind : ExprForm.ofKind n.kind = .call) :
    (callee src below n).Yields fun x => (Node.expr x).RestsIn E (src.span n) := by
  refine (sits_filled hn hb).bind ?_
  rintro fn ⟨hfn, hfilled⟩
  split
  · rename_i targs ht
    have htargs := hn.of_field ht
    have hle := (htargs.inside targs.mem_preorder_self).le
    have hstop := (hn.inside_field ht).stop_le
    have hfirst (hE : E) : fn.span.stop ≤ src.pos targs.start := by
      obtain ⟨c, hc, hprecedes⟩ := (hn.isShaped hE).call hkind targs ht
      exact UInt32.le_trans (hfilled c hc).inside.stop_le (htargs.precedes hprecedes)
    refine (row_partsOf hn hb ht).bind ?_
    intro indices hindices
    refine .pure ⟨settled_instantiate ⟨hfn.settled, ?_⟩ hindices ?_, ?_⟩
    · intro hE _
      exact ⟨UInt32.le_refl _, hfn.inside.le, UInt32.le_trans (hfirst hE) hle⟩
    · intro hE
      exact ⟨UInt32.le_trans hfn.inside.le (hfirst hE), hle, UInt32.le_refl _⟩
    · intro hE _
      show (instantiate ⟨fn.span.start, src.pos targs.stop⟩ fn indices).span.Inside _
      rw [span_instantiate]
      refine ⟨hfn.inside.start_le, ?_, hstop⟩
      exact UInt32.le_trans hfn.inside.le (UInt32.le_trans (hfirst hE) hle)
  · exact .pure hfn.rests

theorem sits_call (hkind : ExprForm.ofKind n.kind = .call) :
    (call src below n).Yields fun x => (Node.expr x).SitsIn E (src.span n) := by
  refine (rests_callee hn hb hkind).bind ?_
  intro fn hfn
  split
  · rename_i list hl
    refine (row_partsOf hn hb hl).bind ?_
    intro args hargs
    refine .pure (sits_node hn rfl rfl (List.forall_mem_cons.2 ⟨hfn, ?_⟩))
    exact rests_listOf (hargs.trans (hn.inside_field hl))
  · exact .pure (sits_node hn rfl rfl (List.forall_mem_cons.2 ⟨hfn, rests_listOf row_nil⟩))

/-- The child in a field, or else the part at a place. -/
theorem sits_fieldOrPart (i : Nat) :
    (exprOf src below n (n.child? f <|> n.parts[i]?)).Yields fun x =>
      (Node.expr x).SitsIn E (src.span n) := by
  refine yields_exprOf (fun c hc => sits_child hn hb c ?_) (sits_bad hn)
  cases hf : n.child? f with
  | some d =>
    rw [hf] at hc
    cases hc
    exact mem_children_of_child? hf
  | none =>
    rw [hf] at hc
    exact mem_children_of_part (List.mem_of_getElem? hc)

theorem sits_keyed : (keyed src below n).Yields fun x =>
    (Node.expr x).SitsIn E (src.span n) := by
  refine (sits_fieldOrPart hn hb 0).bind ?_
  intro key hkey
  refine (sits_fieldOrPart hn hb 1).bind ?_
  intro value hvalue
  exact .pure (sits_node hn rfl rfl (by simp [Node.children, ofExpr, hkey.rests, hvalue.rests]))

theorem sits_funcLit (hkind : ExprForm.ofKind n.kind = .funcLit) :
    (funcLit src below n).Yields fun x => (Node.expr x).SitsIn E (src.span n) := by
  refine (sits_signature hn hb (by simp [isFunction, hkind])).bind ?_
  intro type htype
  refine (sits_blockIn hn hb).bind ?_
  intro body hbody
  exact .pure (sits_node hn rfl rfl (by simp [Node.children, ofExpr, htype.rests, hbody.rests]))

theorem sits_compositeLit : (compositeLit src below n).Yields fun x =>
    (Node.expr x).SitsIn E (src.span n) := by
  refine (sits_exprIn hn hb).bind ?_
  intro type htype
  split
  · rename_i body hbody
    refine (row_partsOf hn hb hbody).bind ?_
    intro elts helts
    refine .pure (sits_node hn rfl rfl (List.forall_mem_cons.2 ⟨htype.rests, ?_⟩))
    exact rests_listOf (helts.trans (hn.inside_field hbody))
  · exact .pure (sits_node hn rfl rfl
      (List.forall_mem_cons.2 ⟨htype.rests, rests_listOf row_nil⟩))

theorem sits_genericType : (genericType src below n).Yields fun x =>
    (Node.expr x).SitsIn E (src.span n) := by
  refine (sits_exprIn hn hb).bind ?_
  intro x hx
  split
  · rename_i targs ht
    refine (row_partsOf hn hb ht).bind ?_
    intro indices hindices
    exact .pure (sits_instantiate hn hx (hindices.trans (hn.inside_field ht)))
  · exact .pure (sits_instantiate hn hx row_nil)

theorem sits_structType (hkind : ExprForm.ofKind n.kind = .struct) :
    (structType src below n).Yields fun x => (Node.expr x).SitsIn E (src.span n) := by
  unfold structType
  split
  · rename_i list hl
    have hin := mem_children_of_part (List.mem_of_mem_head? hl)
    refine (sits_structFields (hn.of_child hin) hb
      fun hE => (hn.isShaped hE).embedded hkind list hl).bind ?_
    intro fields hfields
    have hfields := hfields.trans (hn.inside_child hin)
    exact .pure (sits_node hn rfl rfl (List.forall_mem_singleton.2 hfields.rests))
  · have hfields : (Node.fieldList ⟨src.span n, []⟩).SitsIn E (src.span n) :=
      sits_row hn rfl row_nil
    exact .pure (sits_node hn rfl rfl (List.forall_mem_singleton.2 hfields.rests))

theorem sits_unary : (unary src below n).Yields fun x =>
    (Node.expr x).SitsIn E (src.span n) := by
  refine (sits_exprIn hn hb).bind ?_
  intro x hx
  split <;> exact .pure (sits_node hn rfl rfl (List.forall_mem_singleton.2 hx.rests))

omit hn hb in
/-- Terms that stand in a row, joined from the left: each joint reaches from the first term. -/
theorem sits_joined {s : Span} {op : String} (ys : List Expr) {x : Expr}
    (h : SitInRow E s ((x :: ys).map Node.expr)) :
    (Node.expr (ys.foldl (fun x y => .binary (Span.cover x.span y.span) x op y) x)).SitsIn E s := by
  induction ys generalizing x with
  | nil => exact h.sits _ List.mem_cons_self
  | cons y ys ih =>
    apply ih
    have hxin := h.sits (.expr x) (by simp)
    have hyin := h.sits (.expr y) (by simp)
    obtain ⟨hxrest, hyrest⟩ := List.pairwise_cons.1 h.inOrder
    have hxy : x.span.Precedes y.span := hxrest (.expr y) (by simp)
    have hle := UInt32.le_trans hxin.inside.le hxy
    have hjoint : (Node.expr (.binary (Span.cover x.span y.span) x op y)).SitsIn E s := by
      constructor
      · apply settled_of_rests rfl rfl
        refine List.forall_mem_cons.2 ⟨⟨hxin.settled, fun _ _ => ?_⟩,
          List.forall_mem_singleton.2 ⟨hyin.settled, fun _ _ => ?_⟩⟩
        · exact ⟨UInt32.le_refl _, hxin.inside.le, UInt32.le_trans hxy hyin.inside.le⟩
        · exact ⟨hle, hyin.inside.le, UInt32.le_refl _⟩
      · exact ⟨hxin.inside.start_le, UInt32.le_trans hle hyin.inside.le, hyin.inside.stop_le⟩
    obtain ⟨hybefore, hlater⟩ := List.pairwise_cons.1 hyrest
    constructor
    · rw [List.map_cons, List.forall_mem_cons]
      exact ⟨hjoint, fun m hm => h.sits m (by simp [List.mem_map.1 hm])⟩
    · exact List.pairwise_cons.2 ⟨hybefore, hlater⟩

theorem sits_union : (union src below n).Yields fun x =>
    (Node.expr x).SitsIn E (src.span n) := by
  refine (row_exprEach hn hb hn.nested.inRow_parts).bind ?_
  intro es hes
  split
  · exact .pure (sits_bad hn)
  · exact .pure (sits_joined _ hes)

omit hb in
/-- The length `...` of an array. -/
theorem sits_countedLength : (Node.expr (countedLength src n)).SitsIn E (src.span n) := by
  unfold countedLength
  split
  · rename_i dots hdots
    have hin : dots ∈ n.children := List.mem_of_find?_eq_some hdots
    have hsits : (Node.expr (.ellipsis (src.span dots) none)).SitsIn E (src.span dots) :=
      sits_leaf (hn.of_child hin) rfl rfl rfl
    exact hsits.trans (hn.inside_child hin)
  · exact sits_leaf hn rfl rfl rfl

/-- **Step.** An expression is settled and sits in its node, if this is so below. -/
theorem sits_expr : (Lowering.expr src below n).Yields fun x =>
    (Node.expr x).SitsIn E (src.span n) := by
  unfold Lowering.expr
  cases hf : ExprForm.ofKind n.kind with
  | name | literal | unknown => exact .pure (sits_leaf hn rfl rfl rfl)
  | funcLit => exact sits_funcLit hn hb hf
  | compositeLit => exact sits_compositeLit hn hb
  | wrapper => exact sits_firstExpr hn hb
  | keyed => exact sits_keyed hn hb
  | generic => exact sits_genericType hn hb
  | call => exact sits_call hn hb hf
  | unary => exact sits_unary hn hb
  | union => exact sits_union hn hb
  | struct => exact sits_structType hn hb hf
  | function =>
    exact (sits_signature hn hb (by simp [isFunction, hf])).bind fun t ht => .pure ht
  | paren | negated | pointer =>
    refine (sits_firstExpr hn hb).bind ?_
    intro x hx
    exact .pure (sits_node hn rfl rfl (List.forall_mem_singleton.2 hx.rests))
  | literalValue =>
    refine (row_exprEach hn hb hn.nested.inRow_parts).bind ?_
    intro elts helts
    refine .pure (sits_node hn rfl rfl (List.forall_mem_append.2 ⟨by simp [slot], ?_⟩))
    exact rests_listOf helts
  | selector =>
    refine (sits_exprIn hn hb).bind ?_
    intro x hx
    have hsel := sits_identIn hn (f := "field")
    exact .pure (sits_node hn rfl rfl (by simp [Node.children, ofExpr, hx.rests, hsel.rests]))
  | sliceType | channel =>
    refine (sits_exprIn hn hb).bind ?_
    intro x hx
    exact .pure (sits_node hn rfl rfl (by simp [Node.children, ofExpr, slot, hx.rests]))
  | index =>
    refine (sits_exprIn hn hb).bind ?_
    intro x hx
    refine (row_exprEach hn hb (hn.nested.inRow_partsIn _)).bind ?_
    intro indices hindices
    exact .pure (sits_instantiate hn hx hindices)
  | instantiation =>
    refine (sits_exprIn hn hb).bind ?_
    intro x hx
    refine (row_exprEach hn hb (hn.nested.inRow (sublist_partsBeside n _))).bind ?_
    intro indices hindices
    exact .pure (sits_instantiate hn hx hindices)
  | slice =>
    refine (sits_exprIn hn hb).bind ?_
    intro x hx
    refine (sits_exprIn? hn hb).bind ?_
    intro low hlow
    refine (sits_exprIn? hn hb).bind ?_
    intro high hhigh
    refine (sits_exprIn? hn hb).bind ?_
    intro max hmax
    refine .pure (sits_node hn rfl rfl ?_)
    simp only [Node.children, ofExpr, List.forall_mem_cons, List.forall_mem_append]
    exact ⟨hx.rests, ⟨rests_slot hlow, rests_slot hhigh⟩, rests_slot hmax⟩
  | typeAssert =>
    refine (sits_exprIn hn hb).bind ?_
    intro x hx
    refine (sits_exprIn? hn hb).bind ?_
    intro type htype
    exact .pure (sits_node hn rfl rfl (List.forall_mem_cons.2 ⟨hx.rests, rests_slot htype⟩))
  | conversion =>
    refine (sits_exprIn hn hb).bind ?_
    intro fn hfn
    refine (sits_exprIn hn hb).bind ?_
    intro arg harg
    refine .pure (sits_node hn rfl rfl (List.forall_mem_cons.2 ⟨hfn.rests, ?_⟩))
    exact rests_listOf (row_singleton harg)
  | binary | array | map =>
    refine (sits_exprIn hn hb).bind ?_
    intro x hx
    refine (sits_exprIn hn hb).bind ?_
    intro y hy
    exact .pure (sits_node hn rfl rfl (by simp [Node.children, ofExpr, slot, hx.rests, hy.rests]))
  | countedArray =>
    have hlen := sits_countedLength hn
    refine (sits_exprIn hn hb).bind ?_
    intro elt helt
    exact .pure (sits_node hn rfl rfl
      (by simp [Node.children, ofExpr, slot, hlen.rests, helt.rests]))
  | interface =>
    refine (rests_elements hn hb hf).bind ?_
    intro methods hmethods
    exact .pure (sits_node hn rfl rfl (List.forall_mem_singleton.2 hmethods))
  | qualified =>
    have hpackage := sits_identIn hn (f := "package")
    have hname := sits_identIn hn (f := "name")
    exact .pure (sits_node hn rfl rfl
      (by simp [Node.children, ofExpr, hpackage.rests, hname.rests]))

end Parts

end Lowering

end UniformTree
