import UniformTree.Walk.Trace
/-!
# The nodes of a walk

A walk that nothing holds up enters a node and then, child by child, what lies below it:
`Node.visited_eq`.
-/

namespace UniformTree

open Visitor

theorem flatMap_attach {α β : Type} (xs : List α) (f : α → List β) :
    (xs.attach.flatMap fun x => f x.1) = xs.flatMap f := by
  rw [← List.flatMap_map, List.attach_map_subtype_val]

namespace Node

/-- A walk only adds to the nodes that were gathered before it. -/
theorem gather_append (n : Node) (s : List Node) :
    (gatherer.walk n s).2 = (gatherer.walk n []).2 ++ s := by
  induction n using Node.induction generalizing s with
  | step n ih =>
    suffices h : ∀ (ns : List Node) (r : List Node), (∀ c ∈ ns, c ∈ n.children) →
        gatherer.walkAll ns (r ++ s) = gatherer.walkAll ns r ++ s by
      rw [walk_eq, walk_eq]
      exact h n.children [n] fun c hc => hc
    intro ns
    induction ns with
    | nil => intro r _; rfl
    | cons c ns hns =>
      intro r hc
      have h0 := ih c (hc c List.mem_cons_self)
      simp only [walkAll, List.foldl_cons] at hns ⊢
      rw [h0 (r ++ s), h0 r, ← List.append_assoc]
      exact hns _ fun d hd => hc d (List.mem_cons_of_mem c hd)

theorem walkAll_gatherer (ns s : List Node) :
    gatherer.walkAll ns s = (ns.flatMap visited).reverse ++ s := by
  induction ns generalizing s with
  | nil => rfl
  | cons n ns ih =>
    simp only [walkAll, List.foldl_cons] at ih ⊢
    rw [ih, gather_append n s]
    simp [visited]

/-- A node is visited before its children, and these in order. -/
theorem visited_eq (n : Node) : n.visited = n :: n.children.flatMap visited := by
  have h : (gatherer.walk n []).2 = gatherer.walkAll n.children [n] := by rw [walk_eq]; rfl
  rw [visited, h, walkAll_gatherer]
  simp

theorem mem_visited_self (n : Node) : n ∈ n.visited := by
  rw [visited_eq]
  exact List.mem_cons_self

/-- A walk of a node visits what a walk of a child does. -/
theorem mem_visited_of_child {n c m : Node} (hc : c ∈ n.children) (hm : m ∈ c.visited) :
    m ∈ n.visited := by
  rw [visited_eq]
  exact List.mem_cons_of_mem n (List.mem_flatMap.2 ⟨c, hc, hm⟩)

/-! ## Slots of a node -/

/-- A walk of a node visits what a walk of an element of one of its lists does. -/
theorem mem_visited_of_listOf {α : Type} {role : ListRole} {f : α → Node} {xs : List α} {a : α}
    {n m : Node} (hlist : listOf role f xs ⊆ n.children) (ha : a ∈ xs) (hm : m ∈ (f a).visited) :
    m ∈ n.visited := by
  cases xs with
  | nil => cases ha
  | cons x xs =>
    apply mem_visited_of_child (hlist (List.mem_singleton_self _))
    exact mem_visited_of_child (List.mem_map_of_mem ha) hm

/-- A walk of a file visits what a walk of one of its declarations does. -/
theorem mem_visited_of_decl {f : File} {d : Decl} {m : Node} (hd : d ∈ f.decls)
    (hm : m ∈ (Node.decl d).visited) : m ∈ (Node.file f).visited := by
  have hlist : listOf .decls .decl f.decls ⊆ (Node.file f).children := fun c hc =>
    List.mem_append_right _ (List.mem_cons_of_mem _ (List.mem_append_left _ hc))
  exact mem_visited_of_listOf hlist hd hm

@[simp] theorem forall_mem_slot {α : Type} {P : Node → Prop} {f : α → Node} {x : Option α} :
    (∀ c ∈ slot f x, P c) ↔ ∀ a ∈ x, P (f a) := by
  cases x <;> simp [slot]

end Node

end UniformTree
