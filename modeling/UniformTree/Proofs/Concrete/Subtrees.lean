import UniformTree.Lowering.Decl
/-!
# Subtrees

The descendants of a node are the nodes of the subtrees of its children. Whatever lowering looks up
in a node is a descendant of it.
-/

namespace UniformTree

namespace Concrete

/-- A rule or a named token. -/
def rule (kind : String) (field : Option String) (start stop : Nat) (children : List Concrete) :
    Concrete := ⟨kind, field, start, stop, true, false, false, children⟩

/-- A piece of punctuation. -/
def token (kind : String) (start stop : Nat) : Concrete :=
  ⟨kind, none, start, stop, false, false, false, []⟩

/-- What holds of a node once it holds of its children holds of every node. -/
theorem induction {P : Concrete → Prop} (step : ∀ n, (∀ c ∈ n.children, P c) → P n)
    (n : Concrete) : P n :=
  step n fun c _ => induction step c
termination_by n.height
decreasing_by exact height_lt_of_mem ‹_›

theorem heightAll_le {cs : List Concrete} {k : Nat} :
    heightAll cs ≤ k ↔ ∀ c ∈ cs, c.height ≤ k := by
  induction cs with
  | nil => simp [heightAll]
  | cons c cs ih => rw [heightAll, Nat.max_le, ih, List.forall_mem_cons]

/-! ## Descendants -/

/-- The nodes below a node. -/
def descendants (n : Concrete) : List Concrete := preorderAll n.children

theorem preorderAll_eq (cs : List Concrete) : preorderAll cs = cs.flatMap preorder := by
  induction cs with
  | nil => rfl
  | cons c cs ih => rw [preorderAll, ih, List.flatMap_cons]

theorem mem_preorderAll {c : Concrete} {cs : List Concrete} :
    c ∈ preorderAll cs ↔ ∃ d ∈ cs, c ∈ d.preorder := by
  rw [preorderAll_eq, List.mem_flatMap]

theorem mem_preorder {n c : Concrete} : c ∈ n.preorder ↔ c = n ∨ c ∈ n.descendants := by
  rw [preorder_eq, List.mem_cons, descendants]

theorem mem_descendants {n c : Concrete} : c ∈ n.descendants ↔ ∃ d ∈ n.children, c ∈ d.preorder :=
  mem_preorderAll

theorem mem_preorder_self (n : Concrete) : n ∈ n.preorder := mem_preorder.2 (.inl rfl)

theorem mem_preorder_of_descendant {n c : Concrete} (h : c ∈ n.descendants) : c ∈ n.preorder :=
  mem_preorder.2 (.inr h)

theorem mem_descendants_of_child {n c : Concrete} (h : c ∈ n.children) : c ∈ n.descendants :=
  mem_descendants.2 ⟨c, h, c.mem_preorder_self⟩

theorem mem_preorder_of_child {n c : Concrete} (h : c ∈ n.children) : c ∈ n.preorder :=
  mem_preorder_of_descendant (mem_descendants_of_child h)

/-- What lies in the subtree of a node of a subtree lies in that subtree. -/
theorem mem_preorder_trans {n c d : Concrete} (hd : d ∈ c.preorder) (hc : c ∈ n.preorder) :
    d ∈ n.preorder := by
  induction n using induction with
  | step n ih =>
    rcases mem_preorder.1 hc with rfl | hc
    · exact hd
    · obtain ⟨e, he, hce⟩ := mem_descendants.1 hc
      exact mem_preorder_of_descendant (mem_descendants.2 ⟨e, he, ih e he hce⟩)

theorem mem_descendants_trans {n c d : Concrete} (hd : d ∈ c.preorder) (hc : c ∈ n.descendants) :
    d ∈ n.descendants := by
  obtain ⟨e, he, hce⟩ := mem_descendants.1 hc
  exact mem_descendants.2 ⟨e, he, mem_preorder_trans hd hce⟩

/-! ## Leaves -/

theorem mem_leavesAll {c : Concrete} {cs : List Concrete} :
    c ∈ leavesAll cs ↔ ∃ d ∈ cs, c ∈ d.leaves := by
  induction cs with
  | nil => simp [leavesAll]
  | cons d ds ih => simp [leavesAll, ih]

theorem mem_preorder_of_leaf {n c : Concrete} (h : c ∈ n.leaves) : c ∈ n.preorder := by
  induction n using induction with
  | step n ih =>
    rcases n with ⟨kind, field, start, stop, isNamed, isError, isMissing, children⟩
    rw [leaves] at h
    split at h
    · rw [List.mem_singleton.1 h]
      exact mem_preorder_self _
    · obtain ⟨d, hd, hc⟩ := mem_leavesAll.1 h
      exact mem_preorder_of_descendant (mem_descendants.2 ⟨d, hd, ih d hd hc⟩)

/-! ## Looked up children -/

theorem mem_children_of_part {n c : Concrete} (h : c ∈ n.parts) : c ∈ n.children :=
  (List.mem_filter.1 h).1

theorem mem_children_of_filter {n c : Concrete} {p : Concrete → Bool} (h : c ∈ n.parts.filter p) :
    c ∈ n.children := mem_children_of_part (List.mem_filter.1 h).1

theorem mem_children_of_child? {n c : Concrete} {f : String} (h : n.child? f = some c) :
    c ∈ n.children := List.mem_of_find?_eq_some h

theorem mem_children_of_partsIn {n c : Concrete} {f : String} (h : c ∈ n.partsIn f) :
    c ∈ n.children := (List.mem_filter.1 h).1

theorem mem_children_of_partsIn_append {n c : Concrete} {f g : String}
    (h : c ∈ n.partsIn f ++ n.partsIn g) : c ∈ n.children :=
  (List.mem_append.1 h).elim mem_children_of_partsIn mem_children_of_partsIn

theorem mem_children_of_partsBeside {n c : Concrete} {f : String} (h : c ∈ n.partsBeside f) :
    c ∈ n.children := List.mem_of_mem_eraseP (List.mem_filter.1 h).1

theorem mem_descendants_of_part {n c : Concrete} (h : c ∈ n.parts) : c ∈ n.descendants :=
  mem_descendants_of_child (mem_children_of_part h)

/-- A part of a list that stands in a field. -/
theorem mem_descendants_of_part_in {n list c : Concrete} {f : String}
    (hl : n.child? f = some list) (hc : c ∈ list.parts) : c ∈ n.descendants :=
  mem_descendants_trans (mem_preorder_of_descendant (mem_descendants_of_part hc))
    (mem_descendants_of_child (mem_children_of_child? hl))

end Concrete

namespace Lowering

open Concrete

/-- A statement of a list of statements lies below the list. -/
theorem mem_preorder_of_flattened {ns : List Concrete} {c : Concrete} (h : c ∈ flattened ns) :
    ∃ n ∈ ns, c ∈ n.preorder := by
  obtain ⟨n, hn, hc⟩ := List.mem_flatMap.1 h
  refine ⟨n, hn, ?_⟩
  split at hc
  · exact mem_preorder_of_child (mem_children_of_part hc)
  · rw [List.mem_singleton.1 hc]
    exact n.mem_preorder_self

theorem mem_specsOfAll {c : Concrete} {cs : List Concrete} :
    c ∈ specsOfAll cs ↔ ∃ d ∈ cs, c ∈ specsOf d := by
  induction cs with
  | nil => simp [specsOfAll]
  | cons d ds ih => simp [specsOfAll, ih]

theorem mem_preorder_of_specsOf {n c : Concrete} (h : c ∈ specsOf n) : c ∈ n.preorder := by
  induction n using induction with
  | step n ih =>
    rcases n with ⟨kind, field, start, stop, isNamed, isError, isMissing, children⟩
    rw [specsOf] at h
    split at h
    · cases h
    · split at h
      · obtain ⟨d, hd, hc⟩ := mem_specsOfAll.1 h
        exact mem_preorder_of_descendant (mem_descendants.2 ⟨d, hd, ih d hd hc⟩)
      · split at h
        · rw [List.mem_singleton.1 h]
          exact mem_preorder_self _
        · cases h

/-- The specs of a declaration lie below it. -/
theorem mem_descendants_of_specNodes {n c : Concrete} (h : c ∈ specNodes n) :
    c ∈ n.descendants := by
  obtain ⟨d, hd, hc⟩ := mem_specsOfAll.1 h
  exact mem_descendants.2 ⟨d, hd, mem_preorder_of_specsOf hc⟩

end Lowering

end UniformTree
