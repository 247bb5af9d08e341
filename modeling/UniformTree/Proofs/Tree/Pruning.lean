import UniformTree.Proofs.Tree.Nodes
import UniformTree.Proofs.Walk.Commentary
/-!
# Leaving comments out prunes the tree

The tree without comments is the one with them after every comment, every group and every list of
groups below the root has been cut off with all that it holds (`Node.normalize_eq_prune`). In a file
or a package commentary holds nothing else, so what is cut off is commentary and all the rest
stays: `Tree.bare_nodes_prune`.
-/

namespace UniformTree

namespace Tree

/-- The tree of a comment, of a group of comments or of a list of such groups. -/
def isCommentary (t : Tree) : Bool :=
  t.kind.isComment || (t.kind == .list && t.label == some ListRole.comments.name)

mutual

/-- Commentary below the root is cut off. -/
def prune : Tree → Tree
  | ⟨kind, span, label, children⟩ => ⟨kind, span, label, pruneAll children⟩

/-- Commentary in a row of trees and below is cut off. -/
def pruneAll : List Tree → List Tree
  | [] => []
  | t :: ts => if t.isCommentary then pruneAll ts else prune t :: pruneAll ts

end

/-- What a node is without its children. -/
def bare (t : Tree) : Kind × Span × Option String := (t.kind, t.span, t.label)

/-- Commentary holds nothing but commentary. -/
def IsSealed (t : Tree) : Prop :=
  ∀ u ∈ t.nodes, u.isCommentary = true → ∀ c ∈ u.children, c.isCommentary = true

theorem pruneAll_eq (ts : List Tree) :
    pruneAll ts = (ts.filter fun t => !t.isCommentary).map prune := by
  induction ts with
  | nil => rfl
  | cons t ts ih =>
    rw [pruneAll, ih]
    cases h : t.isCommentary <;> simp [h]

theorem prune_eq (t : Tree) : t.prune =
    ⟨t.kind, t.span, t.label, (t.children.filter fun t => !t.isCommentary).map prune⟩ := by
  cases t
  rw [prune, pruneAll_eq]

@[simp] theorem kind_prune (t : Tree) : t.prune.kind = t.kind := by rw [prune_eq]

@[simp] theorem label_prune (t : Tree) : t.prune.label = t.label := by rw [prune_eq]

@[simp] theorem bare_prune (t : Tree) : t.prune.bare = t.bare := by rw [prune_eq, bare, bare]

@[simp] theorem isCommentary_prune (t : Tree) : t.prune.isCommentary = t.isCommentary := by
  rw [isCommentary, kind_prune, label_prune, isCommentary]

/-- What holds of a tree once it holds of its children holds of every tree. -/
theorem induction {P : Tree → Prop} (step : ∀ t, (∀ c ∈ t.children, P c) → P t) : ∀ t, P t
  | ⟨_, _, _, children⟩ => step _ fun c (hc : c ∈ children) =>
    have := List.sizeOf_lt_of_mem hc
    induction step c

/-- Below the root of a pruned tree there is no commentary. -/
theorem isCommentary_below_prune (t : Tree) :
    ∀ u ∈ nodesAll t.prune.children, u.isCommentary = false := by
  induction t using induction with
  | step t ih =>
    intro u hu
    obtain ⟨c, hc, hu⟩ := mem_nodesAll.1 hu
    rw [prune_eq] at hc
    obtain ⟨d, hd, rfl⟩ := List.mem_map.1 hc
    obtain ⟨hd, hkept⟩ := List.mem_filter.1 hd
    rw [nodes_eq, List.mem_cons] at hu
    rcases hu with rfl | hu
    · rwa [isCommentary_prune, ← Bool.not_eq_true']
    · exact ih d hd u hu

/-! ## Where commentary holds commentary -/

theorem IsSealed.of_child {t c : Tree} (h : t.IsSealed) (hc : c ∈ t.children) : c.IsSealed :=
  fun u hu => h u (mem_nodes.2 (.inr ⟨c, hc, hu⟩))

/-- Below sealed commentary there is nothing else. -/
theorem IsSealed.isCommentary {t : Tree} (h : t.IsSealed) (ht : t.isCommentary = true) :
    ∀ u ∈ t.nodes, u.isCommentary = true := by
  induction t using induction with
  | step t ih =>
    intro u hu
    rcases mem_nodes.1 hu with rfl | ⟨c, hc, hu⟩
    · exact ht
    · exact ih c hc (h.of_child hc) (h t (mem_nodes.2 (.inl rfl)) ht c hc) u hu

/-- Those of a row of trees that are not commentary. -/
def rest (ts : List Tree) : List Tree := ts.filter fun t => !t.isCommentary

theorem rest_append (ts us : List Tree) : rest (ts ++ us) = rest ts ++ rest us :=
  List.filter_append ..

theorem rest_cons {t : Tree} (ht : t.isCommentary = false) (ts : List Tree) :
    rest (t :: ts) = t :: rest ts := List.filter_cons_of_pos (by rw [ht]; rfl)

theorem bare_nodes_pruneAll {ts : List Tree} (hsealed : ∀ t ∈ ts, t.IsSealed)
    (h : ∀ t ∈ ts, t.isCommentary = false → t.prune.nodes.map bare = (rest t.nodes).map bare) :
    (nodesAll (pruneAll ts)).map bare = (rest (nodesAll ts)).map bare := by
  induction ts with
  | nil => rfl
  | cons t ts ih =>
    rw [List.forall_mem_cons] at hsealed h
    have htail := ih hsealed.2 h.2
    rw [pruneAll, nodesAll, rest_append, List.map_append, ← htail]
    cases ht : t.isCommentary with
    | true =>
      -- commentary is cut off with all that it holds, and all of that is commentary
      have hnone : rest t.nodes = [] := List.filter_eq_nil_iff.2 fun u hu => by
        rw [hsealed.1.isCommentary ht u hu]
        decide
      rw [if_pos rfl, hnone, List.map_nil, List.nil_append]
    | false => rw [if_neg Bool.false_ne_true, nodesAll, List.map_append, h.1 ht]

/-- Pruning a sealed tree keeps all but the commentary, in order. -/
theorem bare_nodes_prune {t : Tree} (h : t.IsSealed) (ht : t.isCommentary = false) :
    t.prune.nodes.map bare = (rest t.nodes).map bare := by
  induction t using induction with
  | step t ih =>
    have hrow := bare_nodes_pruneAll (fun c hc => h.of_child hc) fun c hc => ih c hc (h.of_child hc)
    have hchildren : t.prune.children = pruneAll t.children := by rw [prune_eq, pruneAll_eq]
    rw [nodes_eq, nodes_eq t, hchildren, rest_cons ht, List.map_cons, List.map_cons, hrow,
      bare_prune]

end Tree

namespace Node

variable {n : Node} {o : BuildOptions}

theorem isCommentary_tree (n : Node) (o : BuildOptions) :
    (n.tree o).isCommentary = n.isCommentary := by
  rw [Tree.isCommentary, kind_tree, label_tree]
  cases n with
  | list role s items => cases role <;> rfl
  | expr e => cases e <;> rfl
  | stmt s => cases s <;> rfl
  | spec s => cases s <;> rfl
  | decl d => cases d <;> rfl
  | _ => rfl

/-- Building without comments is building with them and pruning. -/
theorem tree_eq_prune (n : Node) : n.tree ⟨false⟩ = (n.tree ⟨true⟩).prune := by
  induction n using Node.induction with
  | step n ih =>
    have hall : n.children.filter (isKept ⟨true⟩) = n.children :=
      List.filter_eq_self.2 fun _ _ => rfl
    have hkept : (fun t : Tree => !t.isCommentary) ∘ tree ⟨true⟩ = isKept ⟨false⟩ :=
      funext fun c => congrArg not (isCommentary_tree c ⟨true⟩)
    rw [Tree.prune_eq, kind_tree, span_tree, label_tree, tree_eq, tree_eq ⟨true⟩, itemTrees_eq,
      itemTrees_eq, hall, List.filter_map, List.map_map, hkept]
    congr 1
    exact List.map_congr_left fun c hc => ih c (List.mem_filter.1 hc).1

/-- The tree of a node is sealed if commentary holds commentary wherever a walk comes. -/
theorem isSealed_tree (h : ∀ m ∈ n.visited, m.isCommentary = true →
    ∀ c ∈ m.children, c.isCommentary = true) (o : BuildOptions) : (n.tree o).IsSealed := by
  intro u hu hcommentary
  obtain ⟨m, hm, rfl⟩ := exists_visited hu
  rw [isCommentary_tree] at hcommentary
  rw [tree_eq, itemTrees_eq, List.forall_mem_map]
  intro c hc
  rw [isCommentary_tree]
  exact h m hm hcommentary c (List.mem_filter.1 hc).1

theorem isSealed_of_kind (h : n.kind = .file ∨ n.kind = .package) (o : BuildOptions) :
    (n.tree o).IsSealed ∧ n.isCommentary = false := by
  cases n with
  | file f => exact ⟨isSealed_tree (fun m hm => isCommentary_of_child hm) o, rfl⟩
  | package p => exact ⟨isSealed_tree (fun m hm => isCommentary_of_child_package hm) o, rfl⟩
  | comment | commentGroup | field | fieldList | list => rcases h with h | h <;> cases h
  | expr e => cases e <;> rcases h with h | h <;> cases h
  | stmt s => cases s <;> rcases h with h | h <;> cases h
  | spec s => cases s <;> rcases h with h | h <;> cases h
  | decl d => cases d <;> rcases h with h | h <;> cases h

/-- Excluding comments is pruning. What a node is normalized to without comments is what it is
normalized to with them after all commentary below the root has been cut off, and so there is none
left below the root. Of a file or a package nothing else goes: its tree without comments has no
commentary at all, and its nodes are those of the full tree that are not commentary, in the same
order and with the same kinds, spans and labels. -/
theorem normalize_eq_prune :
    (∀ n : Node, n.normalize ⟨false⟩ = (n.normalize ⟨true⟩).prune ∧
      ∀ t ∈ Tree.nodesAll (n.normalize ⟨false⟩).children, t.isCommentary = false) ∧
    (∀ n : Node, n.kind = .file ∨ n.kind = .package →
      (∀ t ∈ (n.normalize ⟨false⟩).nodes, t.isCommentary = false) ∧
      (n.normalize ⟨false⟩).nodes.map Tree.bare =
        (Tree.rest (n.normalize ⟨true⟩).nodes).map Tree.bare) := by
  constructor
  · intro n
    rw [normalize_eq, normalize_eq, tree_eq_prune]
    exact ⟨rfl, Tree.isCommentary_below_prune _⟩
  · intro n hkind
    obtain ⟨hsealed, hroot⟩ := isSealed_of_kind hkind ⟨true⟩
    rw [← isCommentary_tree n ⟨true⟩] at hroot
    rw [normalize_eq, normalize_eq, tree_eq_prune]
    refine ⟨?_, Tree.bare_nodes_prune hsealed hroot⟩
    intro t ht
    rw [Tree.nodes_eq, List.mem_cons] at ht
    rcases ht with rfl | ht
    · rwa [Tree.isCommentary_prune]
    · exact Tree.isCommentary_below_prune _ t ht

/-- A file that has a doc and a group of its own, and a variable with a line comment. -/
def notedFile : File where
  span := ⟨1, 46⟩
  doc := some ⟨⟨1, 5⟩, [⟨⟨1, 5⟩, "// a"⟩]⟩
  name := ⟨⟨14, 15⟩, "p"⟩
  decls := [.gen ⟨26, 35⟩ none .variable [.value ⟨30, 35⟩ none [⟨⟨30, 31⟩, "x"⟩]
    (some (.ident ⟨⟨32, 35⟩, "int"⟩)) [] (some ⟨⟨36, 40⟩, [⟨⟨36, 40⟩, "// d"⟩]⟩)]]
  comments := [⟨⟨16, 25⟩, [⟨⟨16, 20⟩, "// b"⟩, ⟨⟨21, 25⟩, "// c"⟩]⟩]

/-- Without comments the doc, the line comment and the list of the groups are gone, and nothing
else. -/
theorem bare_notedFile :
    ((file notedFile).normalize ⟨false⟩).nodes.map Tree.bare =
      (Tree.rest ((file notedFile).normalize ⟨true⟩).nodes).map Tree.bare ∧
    ((file notedFile).normalize ⟨false⟩).nodes.map (·.kind) =
      [.file, .ident, .list, .genDecl, .list, .valueSpec, .list, .ident, .ident] ∧
    ((file notedFile).normalize ⟨true⟩).nodes.map (·.kind) =
      [.file, .commentGroup, .comment, .ident, .list, .genDecl, .list, .valueSpec, .list, .ident,
        .ident, .commentGroup, .comment, .list, .commentGroup, .comment, .comment] := by
  refine ⟨(normalize_eq_prune.2 (file notedFile) (.inl rfl)).2, ?_, ?_⟩
  · rw [normalize_eq]
    decide +kernel
  · rw [normalize_eq]
    decide +kernel

end Node

end UniformTree
