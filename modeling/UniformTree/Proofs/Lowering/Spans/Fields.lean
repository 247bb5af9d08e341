import UniformTree.Proofs.Lowering.Spans.Settled
/-!
# Where blocks and fields lie

What is lowered from a node is settled and sits in the span of the node, given that this holds
below. Here this is carried through names, blocks, parameters and the fields of structs and
interfaces. What starts or ends with a child, as a function type or the list between two braces
does, takes the order of the children for granted.
-/

namespace UniformTree

/-- What is lowered below from a regular node is settled and sits in the span of the node. -/
structure Below.Settling (E : Prop) (src : Placed) (below : Below) : Prop where
  expr : ∀ c, c.Regular E src →
    (below.expr c).Yields fun x => (Node.expr x).SitsIn E (src.span c)
  stmt : ∀ c, c.Regular E src →
    (below.stmt c).Yields fun s => (Node.stmt s).SitsIn E (src.span c)

namespace Lowering

open Concrete Lower Node

variable {E : Prop} {src : Placed} {below : Below} {n : Concrete} {f : String}

/-! ## Names and other leaves -/

section Leaves

variable (hn : n.Regular E src)

include hn

theorem sits_leaf {m : Node} (hs : m.span = src.span n) (hseq : m.isSequence = false)
    (hleaf : m.children = []) : m.SitsIn E (src.span n) :=
  sits_node hn hs hseq (by simp [hleaf])

theorem sits_point {m : Node} {byte : Nat} (hs : m.span = Span.point (src.pos byte))
    (hlo : n.start ≤ byte) (hhi : byte ≤ n.stop) (hleaf : m.children = []) :
    m.SitsIn E (src.span n) where
  settled := settled_of (by simp [hleaf]) (by simp [hleaf])
  inside := hs ▸ Placed.inside hlo (Nat.le_refl byte) hhi hn.fits

theorem sits_ident : (Node.ident (ident src n)).SitsIn E (src.span n) := sits_leaf hn rfl rfl rfl

theorem sits_basicLit : (Node.basicLit (basicLit src n)).SitsIn E (src.span n) :=
  sits_leaf hn rfl rfl rfl

theorem sits_bad : (Node.expr (.bad (src.span n))).SitsIn E (src.span n) := sits_leaf hn rfl rfl rfl

theorem sits_identIn : (Node.ident (identIn src n f)).SitsIn E (src.span n) := by
  unfold identIn
  split
  · rename_i c hc
    exact (sits_ident (hn.of_field hc)).trans (hn.inside_field hc)
  · exact sits_point hn rfl (Nat.le_refl _) hn.nested.start_le_stop rfl

/-- A literal in a field that may be absent. -/
theorem rests_basicLit : ∀ c ∈ slot Node.basicLit ((n.child? f).map (basicLit src)),
    c.RestsIn E (src.span n) := by
  apply rests_slot
  intro lit hlit
  obtain ⟨c, hc, rfl⟩ := Option.map_eq_some_iff.1 hlit
  exact (sits_basicLit (hn.of_field hc)).trans (hn.inside_field hc)

/-- The names in a field stand in a row. -/
theorem row_namesIn : SitInRow E (src.span n) ((namesIn src n f).map Node.ident) := by
  unfold namesIn
  rw [List.map_map]
  apply row_nodes hn (hn.nested.inRow_partsIn f)
  intro c hc
  exact sits_ident (hn.of_child (mem_children_of_partsIn hc))

end Leaves

/-! ## The parts that are lowered below -/

section Parts

variable (hn : n.Regular E src) (hb : below.Settling E src)

include hn hb

theorem sits_child : ∀ c ∈ n.children,
    (below.expr c).Yields fun x => (Node.expr x).SitsIn E (src.span n) := by
  intro c hc
  exact (hb.expr c (hn.of_child hc)).imp fun x hx =>
    hx.trans (hn.inside_child hc)

theorem sits_exprIn : (exprIn src below n f).Yields fun x =>
    (Node.expr x).SitsIn E (src.span n) :=
  yields_exprIn (sits_child hn hb) (sits_bad hn)

/-- The expression in a field sits where the child stands that fills it. -/
theorem sits_filled : (exprIn src below n f).Yields fun x =>
    (Node.expr x).SitsIn E (src.span n) ∧
      ∀ c ∈ n.child? f, (Node.expr x).SitsIn E (src.span c) := by
  refine (sits_exprIn hn hb).and ?_
  unfold exprIn
  cases hc : n.child? f with
  | none => exact .pure (by simp)
  | some c =>
    exact (hb.expr c (hn.of_field hc)).imp fun x hx d hd => by
      cases hd; exact hx

theorem sits_firstExpr : (firstExpr src below n).Yields fun x =>
    (Node.expr x).SitsIn E (src.span n) :=
  yields_firstExpr (sits_child hn hb) (sits_bad hn)

theorem sits_exprIn? : (exprIn? below n f).Yields fun x =>
    ∀ e ∈ x, (Node.expr e).SitsIn E (src.span n) :=
  yields_exprIn? (sits_child hn hb)

theorem sits_stmtIn? : (stmtIn? below n f).Yields fun x =>
    ∀ s ∈ x, (Node.stmt s).SitsIn E (src.span n) := by
  apply yields_stmtIn?
  intro c hc
  exact (hb.stmt c (hn.of_child hc)).imp fun s hs =>
    hs.trans (hn.inside_child hc)

theorem row_exprEach {cs : List Concrete} (hcs : n.InRow cs) :
    (exprEach below cs).Yields fun es => SitInRow E (src.span n) (es.map Node.expr) :=
  row_map hn hcs fun c hc => hb.expr c (hn.of_mem (hcs.mem c hc))

/-- The parts of a list that stands in a field. -/
theorem row_partsOf {list : Concrete} (hl : n.child? f = some list) :
    (exprEach below list.parts).Yields fun es =>
      SitInRow E (src.span list) (es.map Node.expr) :=
  row_exprEach (hn.of_field hl) hb (hn.of_field hl).nested.inRow_parts

theorem row_exprs : (exprs below n).Yields fun es =>
    SitInRow E (src.span n) (es.map Node.expr) := by
  unfold exprs
  split
  · exact row_exprEach hn hb hn.nested.inRow_parts
  · exact (hb.expr n hn).bind fun x hx => .pure (row_singleton hx)

theorem row_exprsIn : (exprsIn below n f).Yields fun es =>
    SitInRow E (src.span n) (es.map Node.expr) := by
  unfold exprsIn
  split
  · rename_i c hc
    exact (row_exprs (hn.of_field hc) hb).imp fun es hes => hes.trans (hn.inside_field hc)
  · exact .pure row_nil

theorem row_flattened {cs : List Concrete} (hcs : cs.Sublist n.children) :
    (stmtEach below (flattened cs)).Yields fun ss =>
      SitInRow E (src.span n) (ss.map Node.stmt) := by
  have hrow := hn.nested.inRow_flattened hcs
  exact row_map hn hrow fun c hc => hb.stmt c (hn.of_mem (hrow.mem c hc))

/-! ## Blocks -/

theorem sits_block : (block src below n).Yields fun b => (Node.block b).SitsIn E (src.span n) :=
  (row_flattened hn hb List.filter_sublist).bind fun _ hss => .pure (sits_row hn rfl hss)

theorem sits_blockIn : (blockIn src below n f).Yields fun b =>
    (Node.block b).SitsIn E (src.span n) := by
  unfold blockIn
  split
  · rename_i c hc
    exact (sits_block (hn.of_field hc) hb).imp fun b hbl => hbl.trans (hn.inside_field hc)
  · exact .pure (sits_point hn rfl hn.nested.start_le_stop (Nat.le_refl _) rfl)

omit hb in
/-- What the braces of a node enclose makes a row between them. -/
theorem row_braced {α : Type} {lower : Concrete → Lower α} {g : α → Node} {cs : List Concrete}
    (hcs : cs.Sublist n.children) (hbraces : n.Encloses cs)
    (h : ∀ c ∈ cs, (lower c).Yields fun x => (g x).SitsIn E (src.span c)) :
    (braceSpan src n).Inside (src.span n) ∧
      (cs.mapM lower).Yields fun xs => SitInRow E (braceSpan src n) (xs.map g) := by
  have hrow := hn.nested.inRow hcs
  unfold braceSpan
  split
  · rename_i o c ho hc
    have hoin : o ∈ n.children := List.mem_of_find?_eq_some ho
    have hcin : c ∈ n.children := List.mem_of_mem_filter (List.mem_of_getLast? hc)
    have hobounds := hn.nested.bounds (mem_preorder_of_child hoin)
    have hcbounds := hn.nested.bounds (mem_preorder_of_child hcin)
    have hole := (hn.of_child hoin).nested.start_le_stop
    have hcle := (hn.of_child hcin).nested.start_le_stop
    obtain ⟨hoc, hwithin⟩ := hbraces o ho c hc
    unfold Precedes at hoc hwithin
    have hle : o.start ≤ c.stop := by omega
    refine ⟨Placed.inside hobounds.1 hle hcbounds.2 hn.fits, ?_⟩
    simp only [List.map_eq_flatMap]
    refine row_mapM hn hrow (fun d hd => (h d hd).imp fun x hx => row_singleton hx) hle
      hcbounds.2 ?_
    intro d hd
    have hd := hwithin d hd
    omega
  · exact ⟨hn.inside n.mem_preorder_self, row_map hn hrow h⟩

omit hb in
/-- A node over the braces of a concrete node rests in that node, and what they enclose rests in
it. -/
theorem rests_braced {α : Type} {lower : Concrete → Lower α} {g : α → Node} {cs : List Concrete}
    (mk : List α → Node) (hcs : cs.Sublist n.children) (hbraces : E → n.Encloses cs)
    (h : ∀ c ∈ cs, (lower c).Yields fun x => (g x).SitsIn E (src.span c))
    (hspan : ∀ xs, (mk xs).span = braceSpan src n) (hchildren : ∀ xs, (mk xs).children = xs.map g) :
    (cs.mapM lower).Yields fun xs => (mk xs).RestsIn E (src.span n) := by
  intro pool
  have hrow := row_map hn (hn.nested.inRow hcs) h pool
  have hinner (hE : E) := row_braced hn hcs (hbraces hE) h
  constructor
  · apply settled_of
    · intro c hc
      rw [hchildren] at hc
      refine ⟨(hrow.sits c hc).settled, fun hE _ => ?_⟩
      rw [hspan]
      exact (((hinner hE).2 pool).sits c hc).inside
    · intro _
      rw [hchildren]
      exact hrow.inOrder
  · intro hE _
    rw [hspan]
    exact (hinner hE).1

/-! ## Parameters -/

omit hb in
/-- A type and the token that modifies it: an ellipsis over the type of a parameter or a star over
that of a struct field. -/
theorem rests_modified {m : Node} {x : Expr} {kind : String} {token : Concrete}
    (ht : n.token? [kind] = some token) (hmod : E → n.Modifies kind)
    (hx : (Node.expr x).SitsIn E (src.span n))
    (hfilled : ∀ c ∈ n.child? "type", (Node.expr x).SitsIn E (src.span c))
    (hspan : m.span = ⟨src.pos token.start, x.span.stop⟩) (hseq : m.isSequence = false)
    (hchildren : m.children = [Node.expr x]) : m.RestsIn E (src.span n) := by
  have htoken : token ∈ n.children := List.mem_of_find?_eq_some ht
  have hinside : E → (Node.expr x).span.Inside m.span := by
    intro hE
    obtain ⟨type, htype, hprecedes⟩ := hmod hE token ht
    have hstart := (hn.of_child htoken).nested.start_le_stop
    have hfit := (hn.of_field htype).fits
    have hle := (hn.of_field htype).nested.start_le_stop
    have hx := (hfilled type htype).inside
    rw [hspan]
    unfold Precedes at hprecedes
    exact ⟨UInt32.le_trans (Placed.pos_le_pos (by omega) (by omega)) hx.start_le, hx.le,
      UInt32.le_refl _⟩
  constructor
  · apply settled_of_rests rfl hseq
    rw [hchildren, List.forall_mem_singleton]
    exact ⟨hx.settled, fun hE _ => hinside hE⟩
  · intro hE _
    have htokenIn := (hn.inside_child htoken).start_le
    have hle := UInt32.le_trans (hinside hE).start_le (hinside hE).le
    rw [hspan] at hle ⊢
    exact ⟨htokenIn, hle, hx.inside.stop_le⟩

omit hb in
theorem rests_paramType {x : Expr} (hx : (Node.expr x).SitsIn E (src.span n))
    (hfilled : ∀ c ∈ n.child? "type", (Node.expr x).SitsIn E (src.span c)) :
    (Node.expr (paramType src n x)).RestsIn E (src.span n) := by
  unfold paramType
  split
  · rename_i hkind
    split
    · rename_i dots hdots
      have hmod (hE : E) := (hn.isShaped hE).variadic (by simpa using hkind)
      exact rests_modified hn hdots hmod hx hfilled rfl rfl rfl
    · exact hx.rests
  · exact hx.rests

theorem sits_param : (param src below n).Yields fun fd =>
    (Node.field fd).SitsIn E (src.span n) := by
  refine (sits_filled hn hb).bind ?_
  rintro type ⟨htype, hfilled⟩
  refine .pure (sits_node hn rfl rfl ?_)
  have hnames : ∀ c ∈ listOf .names Node.ident (namesIn src n "name"), c.RestsIn E (src.span n) :=
    rests_listOf (row_namesIn hn)
  simp only [Node.children, slot, List.forall_mem_append, List.forall_mem_cons]
  exact ⟨⟨by simp, hnames⟩, rests_paramType hn htype hfilled, by simp⟩

theorem sits_params : (params src below n).Yields fun l =>
    (Node.fieldList l).SitsIn E (src.span n) := by
  have hrow := hn.nested.inRow_parts
  refine (row_map hn hrow fun c hc => sits_param (hn.of_mem (hrow.mem c hc)) hb).bind ?_
  intro list hlist
  exact .pure (sits_row hn rfl hlist)

theorem sits_paramsIn? : (paramsIn? src below n f).Yields fun x =>
    ∀ l ∈ x, ∃ c ∈ n.child? f, (Node.fieldList l).SitsIn E (src.span c) :=
  yields_filled fun _ hc => sits_params (hn.of_child hc) hb

theorem sits_results : (results src below n).Yields fun l =>
    (Node.fieldList l).SitsIn E (src.span n) := by
  unfold results
  split
  · exact sits_params hn hb
  · refine (hb.expr n hn).bind ?_
    intro type htype
    have hfield : (Node.field ⟨src.span n, none, [], type, none, none⟩).SitsIn E (src.span n) :=
      sits_node hn rfl rfl (by simp [Node.children, slot, listOf, htype.rests])
    exact .pure (sits_row hn rfl (row_singleton hfield))

theorem sits_paramsOf : (paramsOf src below n).Yields fun l =>
    (Node.fieldList l).SitsIn E (src.span n) ∧
      ∀ c ∈ n.child? "parameters", (Node.fieldList l).SitsIn E (src.span c) := by
  unfold paramsOf
  split
  · rename_i c hc
    refine (sits_params (hn.of_field hc) hb).imp ?_
    intro l hl
    exact ⟨hl.trans (hn.inside_field hc), by simpa [hc] using hl⟩
  · rename_i hnone
    exact .pure ⟨sits_row hn rfl row_nil, by simp [hnone]⟩

theorem sits_resultsOf : (resultsOf src below n).Yields fun x =>
    ∀ l ∈ x, ∃ c ∈ n.child? "result", (Node.fieldList l).SitsIn E (src.span c) :=
  yields_filled fun _ hc => sits_results (hn.of_child hc) hb

omit hn hb in
/-- A function type reaches from a position to the end of its last list. Its lists lie within it if
they come after the position and one after the other; and if it starts where its owner does then it
lies within the owner whatever the order of the lists. -/
theorem rests_funcType {s : Span} {t : FuncType} (hstart : E → s.start ≤ t.span.start)
    (hstop : t.span.stop = match t.results with
      | some r => r.span.stop
      | none => t.params.span.stop)
    (htypeParams : ∀ l ∈ t.typeParams, (Node.fieldList l).SitsIn E s ∧
      (E → t.span.start ≤ l.span.start ∧ l.span.Precedes t.params.span))
    (hparams : (Node.fieldList t.params).SitsIn E s ∧ (E → t.span.start ≤ t.params.span.start))
    (hresults : ∀ l ∈ t.results, (Node.fieldList l).SitsIn E s ∧
      (E → t.params.span.Precedes l.span)) :
    (Node.funcType t).RestsIn E s ∧ (t.span.start = s.start → t.span.Inside s) := by
  obtain ⟨hparams, hfirst⟩ := hparams
  have hin := hparams.inside
  have hstops : (E → t.params.span.stop ≤ t.span.stop) ∧
      (s.start ≤ t.span.stop ∧ t.span.stop ≤ s.stop) ∧
      ∀ l ∈ t.results, l.span.stop = t.span.stop := by
    rw [hstop]
    cases hr : t.results with
    | none =>
      exact ⟨fun _ => UInt32.le_refl _, ⟨UInt32.le_trans hin.start_le hin.le, hin.stop_le⟩, by simp⟩
    | some r =>
      obtain ⟨⟨-, hrin⟩, hprecedes⟩ := hresults r hr
      refine ⟨fun hE => ?_, ⟨UInt32.le_trans hrin.start_le hrin.le, hrin.stop_le⟩, by simp⟩
      exact UInt32.le_trans (hprecedes hE) hrin.le
  obtain ⟨hlast, hend, hsame⟩ := hstops
  refine ⟨⟨?_, ?_⟩, fun heq => ⟨UInt32.le_of_eq heq.symm, heq ▸ hend.1, hend.2⟩⟩
  · apply settled_of_rests rfl rfl
    simp only [Node.children, ofExpr, List.forall_mem_append, List.forall_mem_cons,
      forall_mem_slot]
    refine ⟨?_, ?_, ?_⟩
    · intro l hl
      obtain ⟨hsits, hbefore⟩ := htypeParams l hl
      refine ⟨hsits.settled, fun hE _ => ⟨(hbefore hE).1, hsits.inside.le, ?_⟩⟩
      exact UInt32.le_trans (hbefore hE).2 (UInt32.le_trans hin.le (hlast hE))
    · exact ⟨hparams.settled, fun hE _ => ⟨hfirst hE, hin.le, hlast hE⟩⟩
    · intro l hl
      obtain ⟨hsits, hafter⟩ := hresults l hl
      refine ⟨hsits.settled, fun hE _ => ⟨?_, hsits.inside.le, ?_⟩⟩
      · exact UInt32.le_trans (hfirst hE) (UInt32.le_trans hin.le (hafter hE))
      · exact UInt32.le_of_eq (hsame l hl)
  · intro hE _
    have hle := UInt32.le_trans (hfirst hE) (UInt32.le_trans hin.le (hlast hE))
    exact ⟨hstart hE, hle, hend.2⟩

/-- A signature that begins at a byte before its lists. -/
theorem rests_signature {byte : Nat} (hsig : E → n.IsSignature) (hn' : n.start ≤ byte)
    (hbegin : E → ∀ f ∈ ["type_parameters", "parameters"], ∀ c ∈ n.child? f, byte ≤ c.start) :
    (signature src below n (src.pos byte)).Yields fun t =>
      (Node.funcType t).RestsIn E (src.span n) ∧
        (src.pos byte = src.pos n.start → t.span.Inside (src.span n)) := by
  have hparameters (hE : E) : ∃ p, p ∈ n.child? "parameters" ∧ src.pos byte ≤ src.pos p.start := by
    obtain ⟨p, hp⟩ := Option.ne_none_iff_exists'.1 (hsig hE).1
    exact ⟨p, hp, (hn.of_field hp).pos_le_start (hbegin hE _ (by simp) p hp)⟩
  refine (sits_paramsIn? hn hb).bind ?_
  intro typeParams htypeParams
  refine (sits_paramsOf hn hb).bind ?_
  rintro params ⟨hparams, hfilled⟩
  refine (sits_resultsOf hn hb).bind ?_
  intro results hresults
  refine .pure (rests_funcType ?_ rfl ?_ ?_ ?_)
  · intro hE
    obtain ⟨p, hp, hle⟩ := hparameters hE
    have hpn := (hn.of_field hp)
    have hfit := hpn.fits
    have hple := hpn.nested.start_le_stop
    have hbefore := hbegin hE "parameters" (by simp) p hp
    exact Placed.pos_le_pos hn' (by omega)
  · intro l hl
    obtain ⟨c, hc, hsits⟩ := htypeParams l hl
    refine ⟨hsits.trans (hn.inside_field hc), fun hE => ⟨?_, ?_⟩⟩
    · have hle := (hn.of_field hc).pos_le_start (hbegin hE _ (by simp) c hc)
      exact UInt32.le_trans hle hsits.inside.start_le
    · obtain ⟨p, hp, -⟩ := hparameters hE
      have hprecedes := (hn.of_field hp).precedes ((hsig hE).2.1 c hc p hp)
      exact hprecedes.of_inside hsits.inside (hfilled p hp).inside
  · refine ⟨hparams, fun hE => ?_⟩
    obtain ⟨p, hp, hle⟩ := hparameters hE
    exact UInt32.le_trans hle (hfilled p hp).inside.start_le
  · intro r hr
    obtain ⟨c, hc, hsits⟩ := hresults r hr
    refine ⟨hsits.trans (hn.inside_field hc), fun hE => ?_⟩
    obtain ⟨p, hp, -⟩ := hparameters hE
    have hprecedes := (hn.of_field hc).precedes ((hsig hE).2.2 p hp c hc)
    exact hprecedes.of_inside (hfilled p hp).inside hsits.inside

/-- A signature that begins with its node. -/
theorem sits_signature (hfun : n.isFunction = true) :
    (signature src below n (src.pos n.start)).Yields fun t =>
      (Node.funcType t).SitsIn E (src.span n) := by
  refine (rests_signature hn hb (fun hE => (hn.isShaped hE).signature hfun) (Nat.le_refl _) ?_).imp
    fun t ht => ⟨ht.1.settled, ht.2 rfl⟩
  intro _ f _ c hc
  exact (hn.nested.bounds (mem_preorder_of_child (mem_children_of_child? hc))).1

/-! ## Fields of structs and interfaces -/

omit hb in
theorem rests_embeddedType (hmod : E → (n.partsIn "name").isEmpty = true → n.Modifies "*")
    {x : Expr} (hx : (Node.expr x).SitsIn E (src.span n))
    (hfilled : ∀ c ∈ n.child? "type", (Node.expr x).SitsIn E (src.span c)) :
    (Node.expr (embeddedType src n (namesIn src n "name") x)).RestsIn E (src.span n) := by
  unfold embeddedType
  split
  · rename_i hnames
    split
    · rename_i star hstar
      have hnone : (n.partsIn "name").isEmpty = true := by simpa [namesIn] using hnames
      exact rests_modified hn hstar (fun hE => hmod hE hnone) hx hfilled rfl rfl rfl
    · exact hx.rests
  · exact hx.rests

theorem sits_structField (hmod : E → (n.partsIn "name").isEmpty = true → n.Modifies "*") :
    (structField src below n).Yields fun fd => (Node.field fd).SitsIn E (src.span n) := by
  refine (Yields.trivial _).bind ?_
  intro doc _
  refine (sits_filled hn hb).bind ?_
  rintro type ⟨htype, hfilled⟩
  refine (Yields.trivial _).bind ?_
  intro line _
  refine .pure (sits_node hn rfl rfl ?_)
  have hnames : ∀ c ∈ listOf .names Node.ident (namesIn src n "name"), c.RestsIn E (src.span n) :=
    rests_listOf (row_namesIn hn)
  simp only [Node.children, List.forall_mem_append, List.forall_mem_cons]
  exact ⟨⟨rests_group _ doc, hnames⟩, rests_embeddedType hn hmod htype hfilled,
    rests_basicLit hn, rests_group _ line⟩

theorem sits_structFields (hmod : E → ∀ fd ∈ n.parts, (fd.partsIn "name").isEmpty = true →
    fd.Modifies "*") : (structFields src below n).Yields fun l =>
      (Node.fieldList l).SitsIn E (src.span n) := by
  have hrow := hn.nested.inRow_parts
  refine (row_map hn hrow fun c hc => ?_).bind fun list hlist => .pure (sits_row hn rfl hlist)
  exact sits_structField (hn.of_mem (hrow.mem c hc)) hb fun hE => hmod hE c hc

/-- What an element of an interface describes: a method begins at its parameters. -/
theorem rests_elementType (hmethod : E → isMethod n = true → n.IsMethod) :
    (elementType src below n).Yields fun r =>
      SitInRow E (src.span n) (r.1.map Node.ident) ∧ (Node.expr r.2).RestsIn E (src.span n) := by
  unfold elementType
  split
  · rename_i hm
    refine (rests_signature hn hb (fun hE => (hmethod hE hm).2) ?_ ?_).bind ?_
    · unfold methodStart
      split
      · rename_i c hc
        exact (hn.nested.bounds (mem_preorder_of_child (mem_children_of_child? hc))).1
      · exact Nat.le_refl _
    · intro hE f hf c hc
      rcases List.mem_cons.1 hf with rfl | hf
      · rw [(hmethod hE hm).1] at hc
        cases hc
      · obtain rfl := List.mem_singleton.1 hf
        have hstart : methodStart n = c.start := by
          unfold methodStart
          rw [hc]
        exact Nat.le_of_eq hstart
    · rintro t ⟨ht, -⟩
      exact .pure ⟨row_singleton (sits_identIn hn), ht⟩
  · refine (hb.expr n hn).bind ?_
    intro x hx
    exact .pure ⟨row_nil, hx.rests⟩

theorem sits_element (hmethod : E → isMethod n = true → n.IsMethod) :
    (element src below n).Yields fun fd => (Node.field fd).SitsIn E (src.span n) := by
  refine (Yields.trivial _).bind ?_
  intro doc _
  refine (rests_elementType hn hb hmethod).bind ?_
  rintro ⟨names, type⟩ ⟨hnames, htype⟩
  refine (Yields.trivial _).bind ?_
  intro line _
  refine .pure (sits_node hn rfl rfl ?_)
  simp only [Node.children, List.forall_mem_append, List.forall_mem_cons]
  exact ⟨⟨rests_group _ doc, rests_listOf hnames⟩, htype, by simp [slot], rests_group _ line⟩

theorem rests_elements (hkind : ExprForm.ofKind n.kind = .interface) :
    (elements src below n).Yields fun l => (Node.fieldList l).RestsIn E (src.span n) := by
  have hrow := hn.nested.inRow_parts
  refine (rests_braced hn (fun list => Node.fieldList ⟨braceSpan src n, list⟩)
    List.filter_sublist (fun hE => (hn.isShaped hE).elements hkind) ?_ (fun _ => rfl)
    fun _ => rfl).bind fun list hlist => .pure hlist
  intro c hc
  exact sits_element (hn.of_mem (hrow.mem c hc)) hb fun hE => (hn.isShaped hE).methods hkind c hc

end Parts

end Lowering

end UniformTree
