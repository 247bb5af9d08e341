import UniformTree.Proofs.Tree.Grammar
import UniformTree.Proofs.Walk.Visited
/-!
# The builder builds the tree of the grammar

A walk that drives the builder over a node leaves the stack as it was but for one thing: the tree of
the node is appended to the top of the stack or, if the stack was empty, handed out. The invariant
is `Builder.WalkBuilds`, for any stack; `Builder.walk_eq_tree` puts together what follows from
it.
-/

namespace UniformTree

namespace Builder

/-- More trees below the node that was entered last. -/
def append (ts : List Tree) (b : Builder) : Builder :=
  match b.stack with
  | [] => b
  | top :: below => { b with stack := { top with children := top.children ++ ts } :: below }

/-- What has been built when a node is left for good. -/
def finish (done : Tree) (b : Builder) : Option Tree × Builder :=
  match b.stack with
  | [] => (some done, b)
  | _ :: _ => (none, b.append [done])

@[simp] theorem append_options (ts : List Tree) (b : Builder) :
    (b.append ts).options = b.options := by
  unfold append
  split <;> rfl

@[simp] theorem append_nil (b : Builder) : b.append [] = b := by
  rcases b with ⟨o, _ | ⟨⟨kind, span, label, children⟩, below⟩⟩ <;> simp [append]

theorem append_append (ts us : List Tree) (b : Builder) :
    (b.append ts).append us = b.append (ts ++ us) := by
  rcases b with ⟨o, _ | ⟨top, below⟩⟩ <;> simp [append]

@[simp] theorem isEmpty_append (ts : List Tree) (b : Builder) :
    (b.append ts).stack.isEmpty = b.stack.isEmpty := by
  rcases b with ⟨o, _ | ⟨top, below⟩⟩ <;> simp [append]

/-- A node that is left right after it was entered. -/
theorem leave_push (t : Tree) (b : Builder) :
    leave { b with stack := t :: b.stack } = b.finish t := by
  rcases b with ⟨o, _ | ⟨top, below⟩⟩ <;> rfl

theorem append_push (t : Tree) (ts : List Tree) (b : Builder) :
    append ts { b with stack := t :: b.stack } =
      { b with stack := { t with children := t.children ++ ts } :: b.stack } := rfl

/-- What a walk of a node does to the builder. -/
def WalkBuilds (n : Node) : Prop :=
  ∀ b : Builder, visitor.walk n b =
    if b.stack.isEmpty || n.isKept b.options then b.finish (n.tree b.options) else (none, b)

/-- Below an open node, a walk of a row of nodes appends their trees. -/
theorem walkAll_visitor {ns : List Node} (h : ∀ n ∈ ns, WalkBuilds n) (b : Builder)
    (hb : b.stack.isEmpty = false) :
    visitor.walkAll ns b = b.append (Node.itemTrees b.options ns) := by
  induction ns generalizing b with
  | nil => simp [Visitor.walkAll, Node.itemTrees]
  | cons n ns ih =>
    have hn : (visitor.walk n b).2 = b.append (Node.itemTrees b.options [n]) := by
      rw [h n List.mem_cons_self b, hb, Bool.false_or, Node.itemTrees]
      split
      · rcases b with ⟨o, _ | ⟨top, below⟩⟩
        · cases hb
        · rfl
      · simp [Node.itemTrees]
    rw [Visitor.walkAll, List.foldl_cons, hn, ← Visitor.walkAll,
      ih (fun m hm => h m (List.mem_cons_of_mem n hm)) _ (by simpa using hb), append_append,
      append_options, ← Node.itemTrees_append, List.singleton_append]

/-- A node is skipped if it lies below an open one and is not kept. -/
theorem enter_eq (n : Node) (b : Builder) :
    enter n b = if b.stack.isEmpty || n.isKept b.options then
      (.children, { b with stack := n.shell :: b.stack }) else (.skip, b) := by
  unfold enter Node.isKept
  cases b.options.comments <;> cases b.stack.isEmpty <;> cases n.isCommentary <;> rfl

/-- **Step.** If the builder follows walks of the children, it follows one of the node: the shell
is pushed, filled with the trees of the children and left. -/
theorem walkBuilds_of_children {n : Node} (h : ∀ c ∈ n.children, WalkBuilds c) :
    WalkBuilds n := by
  intro b
  have henter : visitor.enter n b = _ := enter_eq n b
  rw [Visitor.walk_eq, henter]
  by_cases hb : (b.stack.isEmpty || n.isKept b.options) = true
  · rw [if_pos hb, if_pos hb]
    simp only
    rw [walkAll_visitor h _ rfl, append_push, Node.tree_eq]
    exact leave_push _ b
  · rw [if_neg hb, if_neg hb]

/-- **Run.** The builder follows every walk. -/
theorem walkBuilds (n : Node) : WalkBuilds n :=
  Node.induction (fun _ => walkBuilds_of_children) n

end Builder

namespace Node

/-! ## Normalizing -/

theorem normalize?_eq (n : Node) (o : BuildOptions) : n.normalize? o = some (n.tree o) := by
  rw [normalize?, Builder.walkBuilds n]
  rfl

theorem normalize_eq (n : Node) (o : BuildOptions) : n.normalize o = n.tree o := by
  rw [normalize, normalize?_eq, Option.getD_some]

theorem nodesAll_itemTrees {o : BuildOptions} (ho : o.comments = true) {ns : List Node}
    (h : ∀ n ∈ ns, (n.tree o).nodes = n.visited.map (tree o)) :
    Tree.nodesAll (itemTrees o ns) = (ns.flatMap visited).map (tree o) := by
  induction ns with
  | nil => rfl
  | cons n ns ih =>
    have hn : n.isKept o = true := by rw [isKept, ho, Bool.true_or]
    rw [itemTrees_cons o hn, Tree.nodesAll, h n List.mem_cons_self,
      ih fun m hm => h m (List.mem_cons_of_mem n hm), List.flatMap_cons, List.map_append]

/-- With the comments kept, the nodes of the tree are the trees of the nodes that are visited. -/
theorem nodes_tree {o : BuildOptions} (ho : o.comments = true) (n : Node) :
    (n.tree o).nodes = n.visited.map (tree o) := by
  induction n using Node.induction with
  | step n ih =>
    rw [visited_eq, List.map_cons, Tree.nodes_eq, ← nodesAll_itemTrees ho ih]
    congr 2
    rw [tree_eq]

end Node

/-- A walk with the builder hands out the tree of the grammar if nothing was open, and otherwise
appends it below the node that was entered last; only a comment that is left out goes missing there.
So normalizing comes to an end with a tree, and the trees of the parts are the parts of the tree. -/
theorem Builder.walk_eq_tree (n : Node) (b : Builder) :
    (visitor.walk n b = match b.stack with
      | [] => (some (n.tree b.options), b)
      | top :: below =>
        (none, { b with stack := { top with
          children := top.children ++ if n.isKept b.options then [n.tree b.options] else [] } ::
            below })) ∧
    (∀ o, n.normalize? o = some (n.tree o) ∧ n.normalize o = n.tree o) ∧
    n.visited.map (fun part => part.normalize ⟨true⟩) = (n.normalize ⟨true⟩).nodes := by
  refine ⟨?_, fun o => ⟨n.normalize?_eq o, n.normalize_eq o⟩, ?_⟩
  · rw [walkBuilds n b]
    rcases b with ⟨o, _ | ⟨⟨kind, span, label, children⟩, below⟩⟩
    · rfl
    · by_cases h : n.isKept o = true <;> simp [finish, append, h]
  · rw [n.normalize_eq, Node.nodes_tree rfl]
    exact List.map_congr_left fun part _ => part.normalize_eq _

end UniformTree
