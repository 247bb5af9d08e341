import UniformTree.Lowering.File
import UniformTree.Proofs.Concrete.Order
import UniformTree.Proofs.Positions
/-!
# Trees of the right shape

Where lowering makes a span out of two children it takes their order for granted, and where it takes
the span of one for what others fill it takes for granted that it is there. `Concrete.IsShaped` says
of a node what is taken for granted of its children: where parameters stand in a signature, that a
type comes after the token that modifies it, and that braces are around what they enclose. Nothing
is asked of other nodes.
-/

namespace UniformTree

namespace Concrete

open Lowering

variable {n c : Concrete} {cs : List Concrete}

/-! ## Order of fields and tokens -/

/-- The first children that fill two fields stand in this order, if both are there. -/
abbrev Leads (n : Concrete) (f g : String) : Prop :=
  ∀ c ∈ n.child? f, ∀ d ∈ n.child? g, c.Precedes d

/-- The first token of a kind comes before the type that it modifies. -/
abbrev Modifies (n : Concrete) (kind : String) : Prop :=
  ∀ t ∈ n.token? [kind], ∃ type ∈ n.child? "type", t.Precedes type

/-- The braces of a node are around some of its children. -/
abbrev Encloses (n : Concrete) (cs : List Concrete) : Prop :=
  ∀ o ∈ n.token? ["\x7b"], ∀ c ∈ n.lastToken? "\x7d",
    o.Precedes c ∧ ∀ d ∈ cs, o.Precedes d ∧ d.Precedes c

/-! ## Forms -/

/-- Type parameters come before the parameters, and these before the results. -/
abbrev IsSignature (n : Concrete) : Prop :=
  n.child? "parameters" ≠ none ∧ n.Leads "type_parameters" "parameters" ∧
    n.Leads "parameters" "result"

/-- The signature of a method begins with its parameters. -/
abbrev IsMethod (n : Concrete) : Prop := n.child? "type_parameters" = none ∧ n.IsSignature

/-- What a struct embeds may be a pointer to a type. -/
abbrev EmbedsTypes (n : Concrete) : Prop :=
  ∀ list ∈ n.parts.head?, ∀ fd ∈ list.parts, (fd.partsIn "name").isEmpty = true → fd.Modifies "*"

/-- The function of a call comes before its type arguments. -/
abbrev IsCall (n : Concrete) : Prop :=
  ∀ targs ∈ n.child? "type_arguments", ∃ fn ∈ n.child? "function", fn.Precedes targs

/-- The alias of a type switch comes before the value, and this before the end of the guard. -/
abbrev IsGuard (n : Concrete) : Prop :=
  n.Leads "alias" "value" ∧ ∃ value ∈ n.child? "value", ∀ c ∈ guardClose? n, value.Precedes c

/-- The node is read as a function. -/
def isFunction (n : Concrete) : Bool :=
  ExprForm.ofKind n.kind == .funcLit || ExprForm.ofKind n.kind == .function ||
    DeclForm.ofKind n.kind == .func

/-- The node is read as a statement that consists of clauses. -/
def hasClauses (n : Concrete) : Bool :=
  StmtForm.ofKind n.kind == .switch || StmtForm.ofKind n.kind == .typeSwitch ||
    StmtForm.ofKind n.kind == .select

/-- What lowering takes for granted of the children of a node. -/
structure IsShaped (n : Concrete) : Prop where
  signature : n.isFunction = true → n.IsSignature
  variadic : n.kind = "variadic_parameter_declaration" → n.Modifies "..."
  embedded : ExprForm.ofKind n.kind = .struct → n.EmbedsTypes
  elements : ExprForm.ofKind n.kind = .interface → n.Encloses n.parts
  methods : ExprForm.ofKind n.kind = .interface → ∀ m ∈ n.parts, isMethod m = true → m.IsMethod
  call : ExprForm.ofKind n.kind = .call → n.IsCall
  guard : StmtForm.ofKind n.kind = .typeSwitch → n.IsGuard
  clauses : n.hasClauses = true → n.Encloses (n.parts.filter isClause)

set_option synthInstance.maxSize 256 in
instance (n : Concrete) : Decidable n.IsShaped :=
  decidable_of_iff
    ((n.isFunction = true → n.IsSignature) ∧
      (n.kind = "variadic_parameter_declaration" → n.Modifies "...") ∧
      (ExprForm.ofKind n.kind = .struct → n.EmbedsTypes) ∧
      (ExprForm.ofKind n.kind = .interface → n.Encloses n.parts) ∧
      (ExprForm.ofKind n.kind = .interface → ∀ m ∈ n.parts, isMethod m = true → m.IsMethod) ∧
      (ExprForm.ofKind n.kind = .call → n.IsCall) ∧
      (StmtForm.ofKind n.kind = .typeSwitch → n.IsGuard) ∧
      (n.hasClauses = true → n.Encloses (n.parts.filter isClause)))
    ⟨fun ⟨a, b, c, d, e, f, g, h⟩ => ⟨a, b, c, d, e, f, g, h⟩,
      fun ⟨a, b, c, d, e, f, g, h⟩ => ⟨a, b, c, d, e, f, g, h⟩⟩

/-- Every node of the subtree has its shape. -/
abbrev WellShaped (n : Concrete) : Prop := ∀ c ∈ n.preorder, c.IsShaped

/-- No clause of a switch has both values and types. -/
abbrev OneSort (n : Concrete) : Prop :=
  ∀ c ∈ n.preorder, isClause c = true →
    (c.partsIn "value").isEmpty = true ∨ (c.partsIn "type").isEmpty = true

/-! ## Rows -/

/-- Nodes of a subtree, one after the other. -/
structure InRow (n : Concrete) (cs : List Concrete) : Prop where
  mem : ∀ c ∈ cs, c ∈ n.preorder
  inOrder : cs.Pairwise Precedes

theorem inRow_self (n : Concrete) : n.InRow [n] :=
  ⟨List.forall_mem_singleton.2 n.mem_preorder_self, List.pairwise_singleton _ _⟩

/-- Some children of a nested node, in their order. -/
theorem Nested.inRow (hn : n.Nested) (h : cs.Sublist n.children) : n.InRow cs where
  mem _ hc := mem_preorder_of_child (h.subset hc)
  inOrder := (hn n n.mem_preorder_self).2.2.sublist h

theorem Nested.inRow_parts (hn : n.Nested) : n.InRow n.parts := hn.inRow List.filter_sublist

theorem Nested.inRow_partsIn (hn : n.Nested) (f : String) : n.InRow (n.partsIn f) :=
  hn.inRow List.filter_sublist

theorem sublist_partsBeside (n : Concrete) (f : String) :
    (n.partsBeside f).Sublist n.children :=
  List.filter_sublist.trans List.eraseP_sublist

/-- Rows below the nodes of a row make one row. -/
theorem InRow.flatMap (hn : n.Nested) (h : n.InRow cs) {g : Concrete → List Concrete}
    (hg : ∀ c ∈ cs, c.InRow (g c)) : n.InRow (cs.flatMap g) := by
  constructor
  · intro d hd
    obtain ⟨c, hc, hd⟩ := List.mem_flatMap.1 hd
    exact mem_preorder_trans ((hg c hc).mem d hd) (h.mem c hc)
  · rw [List.pairwise_flatMap]
    refine ⟨fun c hc => (hg c hc).inOrder, h.inOrder.imp_of_mem ?_⟩
    intro c d hc hd hcd x hx y hy
    have hstop := ((hn.of_mem (h.mem c hc)).bounds ((hg c hc).mem x hx)).2
    have hstart := ((hn.of_mem (h.mem d hd)).bounds ((hg d hd).mem y hy)).1
    unfold Precedes at hcd ⊢
    omega

/-- The statements of some children stand in a row. -/
theorem Nested.inRow_flattened (hn : n.Nested) (h : cs.Sublist n.children) :
    n.InRow (flattened cs) := by
  apply (hn.inRow h).flatMap hn
  intro c hc
  split
  · exact (hn.of_mem (mem_preorder_of_child (h.subset hc))).inRow_parts
  · exact c.inRow_self

theorem specsOfAll_eq (cs : List Concrete) : specsOfAll cs = cs.flatMap specsOf := by
  induction cs with
  | nil => rfl
  | cons c cs ih => rw [specsOfAll, ih, List.flatMap_cons]

theorem Nested.inRow_specsOf (hn : n.Nested) : n.InRow (specsOf n) := by
  induction n using induction with
  | step n ih =>
    have hchildren : n.InRow (specsOfAll n.children) := by
      rw [specsOfAll_eq]
      apply (hn.inRow (List.Sublist.refl _)).flatMap hn
      intro c hc
      exact ih c hc (hn.of_mem (mem_preorder_of_child hc))
    rcases n with ⟨kind, field, start, stop, isNamed, isError, isMissing, children⟩
    rw [specsOf]
    split
    · exact ⟨by simp, .nil⟩
    · split
      · exact hchildren
      · split
        · exact inRow_self _
        · exact ⟨by simp, .nil⟩

/-- The specs of a declaration stand in a row. -/
theorem Nested.inRow_specNodes (hn : n.Nested) : n.InRow (specNodes n) := by
  rw [specNodes, specsOfAll_eq]
  apply (hn.inRow (List.Sublist.refl _)).flatMap hn
  intro c hc
  exact (hn.of_mem (mem_preorder_of_child hc)).inRow_specsOf

/-! ## Regular trees -/

/-- A tree that lowering can keep in order over a source: it is nested, positions suffice for it and
no clause mixes its cases. If `E` then it is well shaped. -/
structure Regular (E : Prop) (src : Placed) (n : Concrete) : Prop where
  nested : n.Nested
  oneSort : n.OneSort
  fits : src.base.toNat + n.stop ≤ Positions.limit
  shaped : E → n.WellShaped

variable {E : Prop} {src : Placed}

theorem Regular.of_mem (hn : n.Regular E src) (hc : c ∈ n.preorder) : c.Regular E src where
  nested := hn.nested.of_mem hc
  oneSort d hd := hn.oneSort d (mem_preorder_trans hd hc)
  fits := Nat.le_trans (Nat.add_le_add_left (hn.nested.bounds hc).2 _) hn.fits
  shaped hE d hd := hn.shaped hE d (mem_preorder_trans hd hc)

theorem Regular.of_child (hn : n.Regular E src) (hc : c ∈ n.children) : c.Regular E src :=
  hn.of_mem (mem_preorder_of_child hc)

theorem Regular.isShaped (hn : n.Regular E src) (hE : E) : n.IsShaped :=
  hn.shaped hE n n.mem_preorder_self

/-- The span of a node lies inside that of a node above it. -/
theorem Regular.inside (hn : n.Regular E src) (hc : c ∈ n.preorder) :
    (src.span c).Inside (src.span n) := by
  obtain ⟨hstart, hstop⟩ := hn.nested.bounds hc
  exact Placed.inside hstart (hn.nested.of_mem hc).start_le_stop hstop hn.fits

theorem Regular.inside_child (hn : n.Regular E src) (hc : c ∈ n.children) :
    (src.span c).Inside (src.span n) := hn.inside (mem_preorder_of_child hc)

section Fields

variable {f : String} (hn : n.Regular E src) (hc : c ∈ n.child? f)

include hn hc

theorem Regular.of_field : c.Regular E src := hn.of_child (mem_children_of_child? hc)

theorem Regular.inside_field : (src.span c).Inside (src.span n) :=
  hn.inside_child (mem_children_of_child? hc)

end Fields

theorem Regular.pos_le_start (hc : c.Regular E src) {byte : Nat} (h : byte ≤ c.start) :
    src.pos byte ≤ src.pos c.start := by
  have hle := hc.nested.start_le_stop
  have hfit := hc.fits
  exact Placed.pos_le_pos h (by omega)

/-- Nodes in order have spans in order. -/
theorem Regular.precedes (hc : c.Regular E src) {d : Concrete} (h : d.Precedes c) :
    (src.span d).Precedes (src.span c) := hc.pos_le_start h

end Concrete

end UniformTree
