import UniformTree.Proofs.Relocation.Ast
import UniformTree.Proofs.Tree.Building
/-!
# Nodes of a normalized tree

Whatever is left out, a node of the uniform tree of a node is itself the uniform tree of a node that
a walk visits (`Node.exists_visited`), so it has a kind, a span and a label that a visited node has.
A source tree in which all positions are shifted has the shifted uniform tree
(`Node.normalize_shift`).
-/

namespace UniformTree

namespace Tree

theorem nodesAll_eq (ts : List Tree) : nodesAll ts = ts.flatMap nodes := by
  induction ts with
  | nil => rfl
  | cons t ts ih => rw [nodesAll, ih, List.flatMap_cons]

theorem mem_nodesAll {t : Tree} {ts : List Tree} : t ∈ nodesAll ts ↔ ∃ u ∈ ts, t ∈ u.nodes := by
  rw [nodesAll_eq, List.mem_flatMap]

/-- The nodes of a tree are the tree and the nodes of its children. -/
theorem mem_nodes {t u : Tree} : t ∈ u.nodes ↔ t = u ∨ ∃ c ∈ u.children, t ∈ c.nodes := by
  rw [nodes_eq, List.mem_cons, mem_nodesAll]

end Tree

namespace Node

variable {o : BuildOptions} {n : Node} {t : Tree}

/-- A node of the uniform tree is the tree itself or the uniform tree of a visited node that is
kept. -/
theorem exists_kept (ht : t ∈ (n.tree o).nodes) :
    t = n.tree o ∨ ∃ m ∈ n.visited, m.isKept o = true ∧ t = m.tree o := by
  induction n using Node.induction with
  | step n ih =>
    rcases Tree.mem_nodes.1 ht with rfl | ⟨u, hu, ht⟩
    · exact .inl rfl
    · rw [tree_eq, itemTrees_eq] at hu
      obtain ⟨c, hc, rfl⟩ := List.mem_map.1 hu
      obtain ⟨hc, hkept⟩ := List.mem_filter.1 hc
      rcases ih c hc ht with rfl | ⟨m, hm, hmkept, rfl⟩
      · exact .inr ⟨c, mem_visited_of_child hc c.mem_visited_self, hkept, rfl⟩
      · exact .inr ⟨m, mem_visited_of_child hc hm, hmkept, rfl⟩

/-- A node of the uniform tree is the uniform tree of a visited node. -/
theorem exists_visited (ht : t ∈ (n.tree o).nodes) : ∃ m ∈ n.visited, t = m.tree o := by
  rcases exists_kept ht with rfl | ⟨m, hm, -, rfl⟩
  · exact ⟨n, n.mem_visited_self, rfl⟩
  · exact ⟨m, hm, rfl⟩

@[simp] theorem kind_tree : (n.tree o).kind = n.kind := by rw [tree_eq]

@[simp] theorem span_tree : (n.tree o).span = n.span := by rw [tree_eq]

@[simp] theorem label_tree : (n.tree o).label = n.label := by rw [tree_eq]

end Node

/-! ## Shifted trees -/

/-- All positions a number of places on; texts stay. -/
def Relocation.shift (d : UInt32) : Relocation := ⟨(· + d), fun _ t => t⟩

/-- A span a number of places on. -/
def Span.shift (d : UInt32) (s : Span) : Span := ⟨s.start + d, s.stop + d⟩

namespace Tree

mutual

/-- A tree a number of places on. -/
def shift (d : UInt32) : Tree → Tree
  | ⟨kind, span, label, children⟩ => ⟨kind, span.shift d, label, shiftAll d children⟩

/-- A row of trees a number of places on. -/
def shiftAll (d : UInt32) : List Tree → List Tree
  | [] => []
  | t :: ts => shift d t :: shiftAll d ts

end

theorem shiftAll_eq (d : UInt32) (ts : List Tree) : shiftAll d ts = ts.map (shift d) := by
  induction ts with
  | nil => rfl
  | cons t ts ih => rw [shiftAll, ih, List.map_cons]

end Tree

namespace Node

variable {o : BuildOptions} {ρ : Relocation}

theorem kind_relocate (n : Node) : (n.relocate ρ).kind = n.kind := by
  cases n with
  | expr e => cases e <;> rfl
  | stmt s => cases s <;> rfl
  | spec s => cases s <;> rfl
  | decl d => cases d <;> rfl
  | _ => rfl

/-- Where texts stay, labels do. -/
theorem label_relocate (hρ : ∀ s t, ρ.text s t = t) (n : Node) :
    (n.relocate ρ).label = n.label := by
  cases n with
  | comment c => exact congrArg some (hρ _ _)
  | expr e =>
    cases e with
    | ident id => exact congrArg some (hρ _ _)
    | basicLit lit => exact congrArg some (hρ _ _)
    | _ => rfl
  | stmt s => cases s <;> rfl
  | spec s =>
    cases s with
    | type s doc name typeParams isAlias t line => cases isAlias <;> rfl
    | _ => rfl
  | decl d => cases d <;> rfl
  | _ => rfl

theorem isKept_relocate (n : Node) : (n.relocate ρ).isKept o = n.isKept o := by
  have h : (n.relocate ρ).isCommentary = n.isCommentary := by
    cases n with
    | expr e => exact congrArg Kind.isComment (kind_relocate (expr e))
    | stmt s => exact congrArg Kind.isComment (kind_relocate (stmt s))
    | spec s => exact congrArg Kind.isComment (kind_relocate (spec s))
    | decl d => exact congrArg Kind.isComment (kind_relocate (decl d))
    | _ => rfl
  rw [isKept, isKept, h]

theorem tree_shift (d : UInt32) (n : Node) :
    (n.relocate (.shift d)).tree o = (n.tree o).shift d := by
  induction n using Node.induction with
  | step n ih =>
    have hkept (c : Node) : (c.relocate (.shift d)).isKept o = c.isKept o := isKept_relocate c
    have hitems : itemTrees o (n.relocate (.shift d)).children =
        Tree.shiftAll d (itemTrees o n.children) := by
      rw [children_relocate, itemTrees_eq, itemTrees_eq, Tree.shiftAll_eq, List.filter_map,
        List.map_map, List.map_map]
      simp only [Function.comp_def, hkept]
      exact List.map_congr_left fun c hc => ih c (List.mem_filter.1 hc).1
    rw [tree_eq, hitems, kind_relocate, span_relocate, label_relocate fun _ _ => rfl,
      tree_eq o n, Tree.shift]
    rfl

/-- The uniform tree of a shifted node is the shifted uniform tree. -/
theorem normalize_shift (d : UInt32) (n : Node) :
    (n.relocate (.shift d)).normalize o = (n.normalize o).shift d := by
  rw [normalize_eq, normalize_eq, tree_shift]

end Node

end UniformTree
