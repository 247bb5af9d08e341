import UniformTree.Proofs.Tree.Building
import UniformTree.Proofs.Tree.Queries
/-!
# Levels of a node

How many levels the uniform tree of a node has, read off the children of the node. Nothing but the
node itself is added on the way from the children: `Node.levels_le`.
-/

namespace UniformTree

namespace Node

variable {o : BuildOptions} {n c : Node} {k : Nat}

/-- The number of levels of the uniform tree of a node. -/
def levels (o : BuildOptions) (n : Node) : Nat := (n.tree o).levels

theorem depth_normalize (n : Node) (o : BuildOptions) : (n.normalize o).depth = n.levels o := by
  rw [normalize_eq, Tree.depth_eq, levels]

theorem levels_eq (n : Node) : n.levels o = 1 + Tree.levelsAll (itemTrees o n.children) := by
  rw [levels, tree_eq, Tree.levels_eq]

/-- A node has one level more than its highest child. -/
theorem levels_le (hk : 0 < k) (h : ∀ c ∈ n.children, c.levels o < k) : n.levels o ≤ k := by
  have : Tree.levelsAll (itemTrees o n.children) ≤ k - 1 := by
    rw [itemTrees_eq, Tree.levelsAll_le]
    intro t ht
    obtain ⟨c, hc, rfl⟩ := List.mem_map.1 ht
    have : (c.tree o).levels < k := h c (List.mem_filter.1 hc).1
    omega
  rw [levels_eq]
  omega

theorem levels_lt_of_mem (h : c ∈ n.children) (hc : c.isKept o = true) :
    c.levels o < n.levels o := by
  have : (c.tree o).levels ≤ Tree.levelsAll (itemTrees o n.children) := by
    refine Tree.levelsAll_le.1 (Nat.le_refl _) _ ?_
    rw [itemTrees_eq]
    exact List.mem_map_of_mem (List.mem_filter.2 ⟨h, hc⟩)
  rw [levels_eq n, levels]
  omega

/-! ## Slots -/

/-- A sequence that is gathered in a list takes one level for the list. -/
theorem levels_listOf {α : Type} {role : ListRole} {f : α → Node} {xs : List α}
    (h : ∀ a ∈ xs, (f a).levels o + 1 < k) : ∀ c ∈ listOf role f xs, c.levels o < k := by
  intro c hc
  cases xs with
  | nil => simp [listOf] at hc
  | cons a as =>
    have hk := h a List.mem_cons_self
    have : c.levels o ≤ k - 1 := by
      rw [listOf, List.mem_singleton] at hc
      · subst hc
        refine levels_le (by omega) (List.forall_mem_map.2 fun b hb => ?_)
        have := h b hb
        omega
      · exact List.cons_ne_nil a as
    omega

/-! ## Leaves -/

@[simp] theorem levels_ident (id : Ident) : (ident id).levels o = 1 := rfl

@[simp] theorem levels_basicLit (lit : BasicLit) : (basicLit lit).levels o = 1 := rfl

@[simp] theorem levels_badExpr (s : Span) : (expr (.bad s)).levels o = 1 := rfl

@[simp] theorem levels_badStmt (s : Span) : (stmt (.bad s)).levels o = 1 := rfl

theorem levels_comment (c : Comment) : (comment c).levels o = 1 := rfl

theorem levels_commentGroup (g : CommentGroup) : (commentGroup g).levels o ≤ 2 :=
  levels_le (by omega) (List.forall_mem_map.2 fun c _ => by rw [levels_comment]; omega)

/-- A group of comments takes two levels, in whatever slot it stands. -/
theorem levels_group {g : Option CommentGroup} (hk : 2 < k) :
    ∀ c ∈ slot commentGroup g, c.levels o < k :=
  forall_mem_slot.2 fun g _ => by have := levels_commentGroup (o := o) g; omega

theorem levels_names {names : List Ident} (hk : 2 < k) :
    ∀ c ∈ listOf .names ident names, c.levels o < k :=
  levels_listOf fun id _ => by rw [levels_ident]; omega

/-! ## Fields -/

/-- A field has one level more than its type, and at least the three of its names. -/
theorem levels_field {s : Span} {doc line : Option CommentGroup} {names : List Ident} {type : Expr}
    {tag : Option BasicLit} (h : (expr type).levels o < k) (hk : 2 < k) :
    (field ⟨s, doc, names, type, tag, line⟩).levels o ≤ k := by
  refine levels_le (by omega) ?_
  simp only [children, List.forall_mem_append, List.forall_mem_cons]
  refine ⟨⟨levels_group hk, levels_names hk⟩, h, ?_, levels_group hk⟩
  exact forall_mem_slot.2 fun lit _ => by rw [levels_basicLit]; omega

theorem levels_fieldList {s : Span} {list : List Field} (hk : 0 < k)
    (h : ∀ fd ∈ list, (field fd).levels o < k) :
    (fieldList ⟨s, list⟩).levels o ≤ k :=
  levels_le hk (List.forall_mem_map.2 h)

end Node

end UniformTree
