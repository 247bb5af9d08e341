import Mathlib.Algebra.Ring.Nat
import UniformTree.Proofs.Tree.Levels
import UniformTree.Proofs.Tree.Pruning
import UniformTree.Proofs.Walk.Skipping
/-!
# Queries of a tree and walks of its node

What the queries of a tree come to satisfies the equations of recursion over the children, although
they go through the tree with a stack. And it can be read off a walk of the node that was
normalized: the nodes of the tree are those that the walk enters, there are as many of them as it
enters and as it leaves, and the depth is the most nodes that it has open at once
(`Tree.queries_of_walk`).
-/

namespace UniformTree

namespace Tree

/-! ## Equations over the children -/

variable (t : Tree)

theorem levelsAll_eq (ts : List Tree) : levelsAll ts = (ts.map levels).foldr max 0 := by
  induction ts with
  | nil => rfl
  | cons t ts ih => rw [levelsAll, ih, List.map_cons, List.foldr_cons]

theorem preorder_cons : t.preorder = t :: t.children.flatMap preorder := by
  have h : preorder = nodes := funext preorder_eq
  rw [h, nodes_eq, nodesAll_eq]

theorem size_eq : t.size = 1 + (t.children.map size).sum := by
  rw [size, preorder_cons, List.length_cons, List.length_flatMap, Nat.add_comm]
  rfl

theorem depth_cons : t.depth = 1 + (t.children.map depth).foldr max 0 := by
  have h : depth = levels := funext depth_eq
  rw [h, levels_eq, levelsAll_eq]

end Tree

namespace Call

/-- The node that is entered. -/
def entered? : Call → Option Node
  | enter n => some n
  | _ => none

def isEnter : Call → Bool
  | enter _ => true
  | _ => false

def isLeave : Call → Bool
  | leave => true
  | _ => false

/-- The most nodes that are open at once in the course of calls, if some are open before. -/
def peak : Nat → List Call → Nat
  | now, [] => now
  | now, enter _ :: cs => max now (peak (now + 1) cs)
  | now, skip _ :: cs => peak now cs
  | now, leave :: cs => max now (peak (now - 1) cs)

theorem le_peak (now : Nat) (cs : List Call) : now ≤ peak now cs := by
  induction cs with
  | nil => exact Nat.le_refl now
  | cons c cs ih =>
    cases c with
    | skip n => exact ih
    | _ => exact Nat.le_max_left _ _

/-- As many nodes are left as are entered. -/
theorem Balanced.countP_eq {cs : List Call} (h : Balanced cs) :
    cs.countP isLeave = cs.countP isEnter := by
  induction h with
  | nil => rfl
  | skip n _ ih => simpa [List.countP_cons, isEnter, isLeave] using ih
  | node n _ _ within rest =>
    simp only [List.countP_append, List.countP_cons, isEnter, isLeave, if_true,
      Bool.false_eq_true, if_false]
    omega

theorem countP_isEnter (cs : List Call) :
    cs.countP isEnter = (cs.filterMap entered?).length := by
  rw [List.length_filterMap_eq_countP]
  exact List.countP_congr fun c _ => by cases c <;> rfl

end Call

namespace Node

open Call

/-! ## Walks that skip nothing -/

/-- The nodes that are entered are those of the walk. -/
theorem entered_calls (n : Node) :
    (n.calls fun _ => false).filterMap entered? = n.visited := by
  induction n using Node.induction with
  | step n ih =>
    have hrow : (n.children.flatMap (calls fun _ => false)).filterMap entered? =
        n.children.flatMap visited := by
      rw [List.filterMap_flatMap]
      exact List.flatMap_congr ih
    rw [calls_of_enters rfl, visited_eq, List.filterMap_append, List.filterMap_cons, hrow]
    exact List.append_nil _

theorem countP_isEnter_calls (n : Node) :
    (n.calls fun _ => false).countP isEnter = n.visited.length := by
  rw [countP_isEnter, entered_calls]

variable {o : BuildOptions}

/-- What a walk of each node of a row has open at most, a walk of the row has. -/
theorem peak_row (ho : o.comments = true) (now : Nat) {ns : List Node} (h : ∀ n ∈ ns, ∀ cs,
      peak now (n.calls (fun _ => false) ++ cs) = max (now + n.levels o) (peak now cs))
    (cs : List Call) : peak now (ns.flatMap (calls fun _ => false) ++ cs) =
      max (now + Tree.levelsAll (itemTrees o ns)) (peak now cs) := by
  induction ns with
  | nil => exact (Nat.max_eq_right (le_peak now cs)).symm
  | cons n ns ih =>
    have hn : n.isKept o = true := by rw [isKept, ho, Bool.true_or]
    rw [List.forall_mem_cons] at h
    rw [List.flatMap_cons, List.append_assoc, h.1, ih h.2, itemTrees_cons o hn, Tree.levelsAll,
      ← Node.levels]
    omega

/-- A walk of a node has as many nodes open at most as its tree has levels. -/
theorem peak_calls (ho : o.comments = true) (n : Node) (now : Nat) (cs : List Call) :
    peak now (n.calls (fun _ => false) ++ cs) = max (now + n.levels o) (peak now cs) := by
  induction n using Node.induction generalizing now cs with
  | step n ih =>
    have hrow := peak_row ho (now + 1) (fun c hc => ih c hc (now + 1)) (.leave :: cs)
    rw [calls_of_enters rfl, List.cons_append, List.cons_append, List.append_assoc, peak,
      List.singleton_append, hrow, peak, Nat.add_sub_cancel, levels_eq]
    omega

end Node

/-- The queries of a tree agree with recursion and with a walk. The pre-order of a tree is the tree
and the pre-orders of its children in order; its size is one more than their sizes together; its
depth is one more than the greatest depth of a child, and one for a leaf; the nodes of a kind are
those of the pre-order, and the first of them is the one that is found. Of the tree of a node with
its comments, the nodes in pre-order have the kinds, spans and labels of the nodes that a walk of
the node enters with a visitor that skips nothing; the size is the number of times that it enters a
node and the number of times that it leaves one, and the depth is the most nodes that it has open
at once. -/
theorem Tree.queries_of_walk :
    (∀ t : Tree, t.preorder = t :: t.children.flatMap preorder ∧
      t.size = 1 + (t.children.map size).sum ∧
      t.depth = 1 + (t.children.map depth).foldr max 0 ∧
      ∀ kind, t.findAll kind = t.nodes.filter (·.kind == kind) ∧
        t.find? kind = (t.findAll kind).head?) ∧
    (∀ {σ ω : Type} (v : Visitor σ ω), v.Skips (fun _ => false) → ∀ (n : Node) (s : σ),
      (n.normalize ⟨true⟩).preorder.map bare =
        ((v.trace n s).filterMap Call.entered?).map (fun m => (m.kind, m.span, m.label)) ∧
      (n.normalize ⟨true⟩).size = (v.trace n s).countP Call.isEnter ∧
      (n.normalize ⟨true⟩).size = (v.trace n s).countP Call.isLeave ∧
      (n.normalize ⟨true⟩).depth = Call.peak 0 (v.trace n s)) := by
  constructor
  · intro t
    refine ⟨t.preorder_cons, t.size_eq, t.depth_cons, fun kind => ⟨?_, ?_⟩⟩
    · rw [findAll, preorder_eq]
    · rw [findAll, find?, List.head?_filter]
  · intro σ ω v hv n s
    have hnodes : (n.normalize ⟨true⟩).preorder = n.visited.map (Node.tree ⟨true⟩) := by
      rw [Node.normalize_eq, preorder_eq, Node.nodes_tree rfl]
    have hsize : (n.normalize ⟨true⟩).size = (n.calls fun _ => false).countP Call.isEnter := by
      rw [size, hnodes, List.length_map, Node.countP_isEnter_calls]
    rw [Visitor.trace_eq hv]
    refine ⟨?_, hsize, ?_, ?_⟩
    · rw [hnodes, Node.entered_calls, List.map_map]
      refine List.map_congr_left fun m _ => ?_
      simp only [Function.comp_apply, bare, Node.kind_tree, Node.span_tree, Node.label_tree]
    · rw [hsize, (Node.balanced_calls _ n).countP_eq]
    · have hpeak := Node.peak_calls (o := ⟨true⟩) rfl n 0 []
      rw [List.append_nil, Call.peak, Nat.zero_add, Nat.max_zero] at hpeak
      rw [hpeak, Node.depth_normalize]

/-- A walk of a function literal with nothing in it enters four nodes, the literal, its type, the
parameters and the block, and has three of them open at most. -/
theorem Tree.queries_bareLit :
    ((Trace.recorder fun _ => false).trace (.expr Visitor.bareLit) Trace.empty).countP
      Call.isEnter = 4 ∧
    Call.peak 0 ((Trace.recorder fun _ => false).trace (.expr Visitor.bareLit) Trace.empty) =
      3 := by
  have h := queries_of_walk.2 (Trace.recorder fun _ => false) (Visitor.skips_recorder _)
    (.expr Visitor.bareLit) Trace.empty
  constructor
  · rw [← h.2.1, size, preorder_eq, Node.normalize_eq]
    rfl
  · rw [← h.2.2.2, depth_eq, Node.normalize_eq]
    rfl

end UniformTree
