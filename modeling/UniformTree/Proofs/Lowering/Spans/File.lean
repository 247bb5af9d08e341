import UniformTree.Proofs.Comment.Layout
import UniformTree.Proofs.Lowering.Comments.File
import UniformTree.Proofs.Lowering.Spans.Stmt
import UniformTree.Proofs.Tree.Nodes
/-!
# Spans nest

In a file that was lowered from a nested tree of the right shape every node lies within its parent,
but for comments, which stand beside the node that owns them (`Lowering.spans_nest`).
-/

namespace UniformTree

open Concrete

/-! ## Children of a tree -/

namespace Node

/-- The children of a node in the tree of a walk are trees of its own children. -/
theorem exists_child {o : BuildOptions} {n : Node} {t u : Tree} (ht : t ∈ (n.tree o).nodes)
    (hu : u ∈ t.children) :
    ∃ m ∈ n.visited, t = m.tree o ∧ ∃ c ∈ m.children, u = c.tree o := by
  obtain ⟨m, hm, rfl⟩ := exists_visited ht
  rw [tree_eq, itemTrees_eq] at hu
  obtain ⟨c, hc, rfl⟩ := List.mem_map.1 hu
  exact ⟨m, hm, rfl, c, (List.mem_filter.1 hc).1, rfl⟩

theorem isAside_eq_false {n : Node} (hgroup : n.kind ≠ .commentGroup)
    (hlist : ¬ (n.kind = .list ∧ n.label = some "Comments")) : n.isAside = false := by
  cases n with
  | commentGroup g => exact absurd rfl hgroup
  | list role s items =>
    have hrole : role ≠ .comments := by
      rintro rfl
      exact hlist ⟨rfl, rfl⟩
    simpa [isAside] using hrole
  | _ => rfl

end Node

/-! ## Files -/

namespace Lowering

open Lower Node

variable {E : Prop} {src : Placed} {root clause name : Concrete} {f : File}

/-- A file is settled. -/
theorem settled_fileAt (hn : root.Regular E src) (hname : name ∈ root.preorder) :
    (fileAt src root clause name).Yields fun f => (Node.file f).Settled E := by
  have hnodes : root.InRow (root.parts.filter fun n => !isPackageClause n) :=
    hn.nested.inRow (List.filter_sublist.trans List.filter_sublist)
  have hid := (sits_ident (hn.of_mem hname)).trans (hn.inside hname)
  refine (Yields.trivial _).bind ?_
  intro doc _
  refine (row_map hn hnodes fun c hc =>
    sits_decl (hn.of_mem (hnodes.mem c hc)) (settling_upTo E src root.height)).bind ?_
  intro decls hdecls
  refine (Yields.trivial _).bind ?_
  intro pool _
  refine .pure (settled_of_rests rfl rfl ?_)
  simp only [Node.children, List.forall_mem_append, List.forall_mem_cons]
  exact ⟨rests_group _ doc, hid.rests, rests_listOf hdecls, rests_comments _ _⟩

theorem settled_file (hn : root.Regular E src) (h : file src root = .ok f) :
    (Node.file f).Settled E := by
  obtain ⟨clause, hclause, name, hname, rfl⟩ := exists_fileAt h
  apply settled_fileAt hn
  exact mem_preorder_trans (mem_preorder_of_child (mem_children_of_part hname))
    (mem_preorder_of_child (mem_children_of_part hclause))

/-- The comments of a group that a walk visits lie in the group, one after the other. -/
theorem pairwise_list_of_visited (hn : root.Regular E src) (h : file src root = .ok f)
    {g : CommentGroup} (hg : commentGroup g ∈ (Node.file f).visited) :
    (∀ c ∈ g.list, c.span.Inside g.span) ∧
      g.list.Pairwise fun c d => c.span.Precedes d.span :=
  CommentPool.pairwise_list hn.nested hn.fits ((groups_file h).1.subset (mem_groups_file hg))

/-- Spans nest. A child of a node of the normalized file lies within that node and does not end
before it starts, unless it is a group of comments or the list of the groups of the file. This holds
of every nested tree of the right shape whose clauses do not mix values and types, placed where
positions suffice for it. -/
theorem spans_nest (hroot : root.Nested) (hshaped : root.WellShaped) (hclauses : root.OneSort)
    (hfit : src.base.toNat + root.stop ≤ Positions.limit) (h : Lowering.file src root = .ok f)
    (o : BuildOptions) : ∀ t ∈ ((Node.file f).normalize o).nodes, ∀ u ∈ t.children,
      u.kind ≠ .commentGroup → ¬ (u.kind = .list ∧ u.label = some "Comments") →
      t.span.start ≤ u.span.start ∧ u.span.start ≤ u.span.stop ∧ u.span.stop ≤ t.span.stop := by
  have hn : root.Regular True src := ⟨hroot, hclauses, hfit, fun _ => hshaped⟩
  intro t ht u hu hgroup hlist
  rw [Node.normalize_eq] at ht
  obtain ⟨m, hm, rfl, c, hc, rfl⟩ := Node.exists_child ht hu
  rw [Node.kind_tree] at hgroup
  rw [Node.kind_tree, Node.label_tree] at hlist
  rw [Node.span_tree, Node.span_tree]
  have hinside : c.span.Inside m.span := by
    -- settling says nothing of groups: where their comments lie is for the pool to say
    cases hm' : m.group? with
    | none =>
      have htidy := settled_file hn h m hm hm'
      exact htidy.covers True.intro c hc (isAside_eq_false hgroup hlist)
    | some g =>
      obtain rfl := eq_of_group? hm'
      obtain ⟨comment, hcomment, rfl⟩ := List.mem_map.1 hc
      exact (pairwise_list_of_visited hn h hm).1 comment hcomment
  exact ⟨hinside.start_le, hinside.le, hinside.stop_le⟩

/-- A file with a method that has a comment, a variadic parameter and a type switch. -/
def guardedFile : Concrete :=
  rule "source_file" none 0 89 [
    rule "package_clause" none 0 9 [
      token "package" 0 7, rule "package_identifier" none 8 9 []],
    remark 10 14,
    rule "method_declaration" none 15 88 [
      token "func" 15 19,
      rule "parameter_list" (some "receiver") 20 26 [
        rule "parameter_declaration" none 21 25 [
          rule "identifier" (some "name") 21 22 [],
          rule "pointer_type" (some "type") 23 25 [
            token "*" 23 24, rule "type_identifier" none 24 25 []]]],
      rule "field_identifier" (some "name") 27 28 [],
      rule "parameter_list" (some "parameters") 28 38 [
        rule "variadic_parameter_declaration" none 29 37 [
          rule "identifier" (some "name") 29 30 [],
          token "..." 31 34,
          rule "type_identifier" (some "type") 34 37 []]],
      rule "block" (some "body") 39 88 [
        token "\x7b" 39 40,
        rule "type_switch_statement" none 42 86 [
          token "switch" 42 48,
          rule "expression_list" (some "alias") 49 50 [rule "identifier" none 49 50 []],
          token ":=" 51 53,
          rule "call_expression" (some "value") 54 63 [
            rule "identifier" (some "function") 54 55 [],
            rule "type_arguments" (some "type_arguments") 55 60 [
              rule "type_elem" none 56 59 [rule "type_identifier" none 56 59 []]],
            rule "argument_list" (some "arguments") 60 63 [rule "identifier" none 61 62 []]],
          token "." 63 64, token "(" 64 65, token "type" 65 69, token ")" 69 70,
          token "\x7b" 71 72,
          rule "type_case" none 74 83 [
            token "case" 74 78,
            rule "type_identifier" (some "type") 79 82 [],
            token ":" 82 83],
          token "\x7d" 85 86],
        token "\x7d" 87 88]]]

/-- The text of that file. -/
def guardedSource : Placed where
  source := .ofString ("package p\n// m\nfunc (t *T) m(x ...int) \x7b\n" ++
    "\tswitch y := g[int](x).(type) \x7b\n\tcase int:\n\t\x7d\n\x7d\n")
  base := 1

/-- Its spans nest, also those made of two children: of the type of the method, of the ellipsis, of
the guard and of the function with its type arguments. The comment stands beside the method. -/
theorem spans_guardedFile : ∃ f, Lowering.file guardedSource guardedFile = .ok f ∧
    (∀ t ∈ ((Node.file f).normalize ⟨true⟩).nodes, ∀ u ∈ t.children,
      u.kind ≠ .commentGroup → ¬ (u.kind = .list ∧ u.label = some "Comments") →
      t.span.start ≤ u.span.start ∧ u.span.start ≤ u.span.stop ∧ u.span.stop ≤ t.span.stop) ∧
    (((Node.file f).tree ⟨true⟩).nodes.filter fun t => [.funcDecl, .commentGroup, .funcType,
        .ellipsis, .assignStmt, .typeAssertExpr, .indexExpr].contains t.kind).map
          (fun t => (t.kind, t.span)) =
      [(.funcDecl, ⟨16, 89⟩), (.commentGroup, ⟨11, 15⟩), (.funcType, ⟨16, 39⟩),
        (.ellipsis, ⟨32, 38⟩), (.assignStmt, ⟨50, 71⟩), (.typeAssertExpr, ⟨55, 71⟩),
        (.indexExpr, ⟨55, 61⟩)] := by
  have hroot : guardedFile.Nested := by decide +kernel
  have hshaped : guardedFile.WellShaped := by decide +kernel
  have hclauses : guardedFile.OneSort := by decide +kernel
  refine ⟨_, rfl, ?_, ?_⟩
  · exact spans_nest hroot hshaped hclauses (by decide +kernel) rfl ⟨true⟩
  · decide +kernel

end Lowering

end UniformTree
