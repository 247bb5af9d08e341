import Mathlib.Data.List.Nodup
import UniformTree.Proofs.Tree.Pruning
/-!
# Synthetic lists

`Node.sequences` are the sequences of a node that stand in its tree as lists, by the form of the
node; the lists of the tree are those over the ones that are not empty
(`Node.Gathered.lists_tree`). A list that a walk comes to is not empty, covers its elements and
holds no other list (`Node.Gathered`), and with comments left out it loses all of its elements or
none. So the lists of a tree are never empty either (`Tree.lists_gathered`).
-/

namespace UniformTree

theorem ListRole.ofName?_name (role : ListRole) : ofName? role.name = some role := by
  cases role <;> decide

theorem ListRole.name_injective {r r' : ListRole} (h : r.name = r'.name) : r = r' :=
  Option.some.inj (by rw [← r.ofName?_name, h, r'.ofName?_name])

namespace Node

variable {n m c : Node} {o : BuildOptions} {role : ListRole}

/-! ## Sequences of a node -/

/-- The sequences of a node that are gathered in lists, each with the role of its list. -/
def sequences : Node → List (ListRole × List Node)
  | field f => [(.names, f.names.map ident)]
  | expr (.compositeLit _ _ elts) => [(.elts, elts.map expr)]
  | expr (.indexList _ _ indices) => [(.indices, indices.map expr)]
  | expr (.call _ _ args _) => [(.args, args.map expr)]
  | stmt (.assign _ lhs _ rhs) => [(.lhs, lhs.map expr), (.rhs, rhs.map expr)]
  | stmt (.returning _ results) => [(.results, results.map expr)]
  | stmt (.caseClause _ cases body) => [(.cases, cases.map expr), (.body, body.map stmt)]
  | stmt (.commClause _ _ body) => [(.body, body.map stmt)]
  | spec (.value _ _ names _ values _) => [(.names, names.map ident), (.values, values.map expr)]
  | decl (.gen _ _ _ specs) => [(.specs, specs.map spec)]
  | file f => [(.decls, f.decls.map decl), (.comments, f.comments.map commentGroup)]
  | _ => []

/-- The list over a sequence. -/
def listAt (q : ListRole × List Node) : Node :=
  list q.1 (Span.coverAll (q.2.map span)) q.2

/-- A synthetic list. -/
def isList : Node → Bool
  | list _ _ _ => true
  | _ => false

@[simp] theorem isList_comment (c : Comment) : (comment c).isList = false := rfl
@[simp] theorem isList_group (g : CommentGroup) : (commentGroup g).isList = false := rfl
@[simp] theorem isList_field (f : Field) : (field f).isList = false := rfl
@[simp] theorem isList_fieldList (l : FieldList) : (fieldList l).isList = false := rfl
@[simp] theorem isList_expr (e : Expr) : (expr e).isList = false := rfl
@[simp] theorem isList_stmt (s : Stmt) : (stmt s).isList = false := rfl
@[simp] theorem isList_spec (s : Spec) : (spec s).isList = false := rfl
@[simp] theorem isList_decl (d : Decl) : (decl d).isList = false := rfl
@[simp] theorem isList_file (f : File) : (file f).isList = false := rfl
@[simp] theorem isList_list (s : Span) (items : List Node) :
    (list role s items).isList = true := rfl

theorem kind_eq_list (n : Node) : (n.kind == .list) = n.isList := by
  cases n with
  | expr e => cases e <;> rfl
  | stmt s => cases s <;> rfl
  | spec s => cases s <;> rfl
  | decl d => cases d <;> rfl
  | _ => rfl

section Slots

variable {α : Type} {f : α → Node}

theorem filter_isList_slot (hf : ∀ a, (f a).isList = false) (x : Option α) :
    (slot f x).filter isList = [] := by
  cases x <;> simp [slot, hf]

@[simp] theorem filter_isList_listOf (xs : List α) :
    (listOf role f xs).filter isList = listOf role id (xs.map f) := by
  cases xs <;> simp [listOf, Function.comp_def]

end Slots

theorem flatMap_listOf (qs : List (ListRole × List Node)) :
    (qs.flatMap fun q => listOf q.1 id q.2) = (qs.filter fun q => !q.2.isEmpty).map listAt := by
  induction qs with
  | nil => rfl
  | cons q qs ih =>
    rw [List.flatMap_cons, ih]
    obtain ⟨role, _ | ⟨x, xs⟩⟩ := q <;> simp [listOf, listAt]

/-- The lists among the children of a node are those over its sequences that are not empty. -/
theorem filter_isList_children (h : n.isList = false) :
    n.children.filter isList = (n.sequences.filter fun q => !q.2.isEmpty).map listAt := by
  rw [← flatMap_listOf]
  have hexpr := filter_isList_slot isList_expr
  have hstmt := filter_isList_slot isList_stmt
  have hident := filter_isList_slot fun id => isList_expr (.ident id)
  have hlit := filter_isList_slot fun lit => isList_expr (.basicLit lit)
  have hblock := filter_isList_slot fun b => isList_stmt (.block b)
  have hfields := filter_isList_slot isList_fieldList
  have hgroup := filter_isList_slot isList_group
  cases n with
  | list => cases h
  | expr e => cases e <;> simp [children, ofExpr, sequences, hexpr, hfields]
  | stmt s => cases s <;> simp [children, ofStmt, sequences, hexpr, hstmt, hident]
  | spec s => cases s <;> simp [children, ofSpec, sequences, hexpr, hident, hfields, hgroup]
  | decl d => cases d <;> simp [children, ofDecl, sequences, hblock, hfields, hgroup]
  | _ => simp [children, sequences, hlit, hgroup]

/-- An element of a sequence is no list, and it is kept unless it is one of the comments of a file
and comments are left out. -/
theorem mem_sequences {q : ListRole × List Node} (hq : q ∈ n.sequences) :
    ∀ i ∈ q.2, i.isList = false ∧ ∀ o, i.isKept o = (o.comments || q.1 != .comments) := by
  revert q
  cases n with
  | expr e => cases e <;> simp [sequences]
  | stmt s => cases s <;> simp [sequences]
  | spec s => cases s <;> simp [sequences]
  | decl d => cases d <;> simp [sequences]
  | _ => simp [sequences]

/-- A role has one sequence. -/
theorem nodup_roles (n : Node) : (n.sequences.map Prod.fst).Nodup := by
  cases n with
  | expr e => cases e <;> simp [sequences]
  | stmt s => cases s <;> simp [sequences]
  | spec s => cases s <;> simp [sequences]
  | decl d => cases d <;> simp [sequences]
  | _ => simp [sequences]

/-! ## Gathered lists -/

/-- A list has elements and covers them, they are no lists, and what keeps the list keeps them. -/
def Gathered : Node → Prop
  | list role s items => items ≠ [] ∧ s = Span.coverAll (items.map span) ∧
    ∀ i ∈ items, i.isList = false ∧ ∀ o, i.isKept o = (list role s items).isKept o
  | _ => True

theorem gathered_of_isList (h : n.isList = false) : n.Gathered := by
  cases n <;> trivial

/-- The list over a sequence of a node is gathered. -/
theorem gathered_listAt {q : ListRole × List Node} (hq : q ∈ n.sequences) (h : q.2 ≠ []) :
    (listAt q).Gathered :=
  ⟨h, rfl, mem_sequences hq⟩

/-- **Step.** The children of a gathered node are gathered. -/
theorem gathered_of_child (h : n.Gathered) (hc : c ∈ n.children) : c.Gathered := by
  cases hn : n.isList with
  | true =>
    cases n with
    | list role s items => exact gathered_of_isList (h.2.2 c hc).1
    | _ => cases hn
  | false =>
    cases hlist : c.isList with
    | false => exact gathered_of_isList hlist
    | true =>
      have hmem : c ∈ n.children.filter isList := List.mem_filter.2 ⟨hc, hlist⟩
      rw [filter_isList_children hn] at hmem
      obtain ⟨q, hq, rfl⟩ := List.mem_map.1 hmem
      obtain ⟨hq, hne⟩ := List.mem_filter.1 hq
      exact gathered_listAt hq (by simpa using hne)

/-- **Run.** What a walk of a gathered node comes to is gathered. -/
theorem gathered_of_mem_visited (h : n.Gathered) (hm : m ∈ n.visited) : m.Gathered := by
  induction n using Node.induction with
  | step n ih =>
    rw [visited_eq, List.mem_cons] at hm
    rcases hm with rfl | hm
    · exact h
    · obtain ⟨c, hc, hm⟩ := List.mem_flatMap.1 hm
      exact ih c hc (gathered_of_child h hc) hm

theorem Gathered.filter_isList (h : n.Gathered) :
    n.children.filter isList = (n.sequences.filter fun q => !q.2.isEmpty).map listAt := by
  cases hn : n.isList with
  | false => exact filter_isList_children hn
  | true =>
    cases n with
    | list role s items =>
      exact List.filter_eq_nil_iff.2 fun i hi => by simp [(h.2.2 i hi).1]
    | _ => cases hn

end Node

/-! ## Lists of a tree -/

namespace Tree

/-- The lists among the children. -/
def lists (t : Tree) : List Tree := t.children.filter (·.kind == .list)

/-- The tree has children and runs from the start of the first to the end of the last. -/
def Covers (t : Tree) : Prop :=
  ∃ first last, t.children.head? = some first ∧ t.children.getLast? = some last ∧
    t.span = Span.cover first.span last.span

theorem covers_of_span {t : Tree} (h : t.children ≠ [])
    (hs : t.span = Span.coverAll (t.children.map span)) : t.Covers := by
  refine ⟨t.children.head h, t.children.getLast h, List.head?_eq_some_head h,
    List.getLast?_eq_some_getLast h, ?_⟩
  rw [hs, Span.coverAll, List.head?_map, List.getLast?_map, List.head?_eq_some_head h,
    List.getLast?_eq_some_getLast h]
  rfl

end Tree

namespace Node

variable {n m : Node} {o : BuildOptions} {t : Tree}

/-- The list over a sequence is in the tree of its node. -/
def hasList (o : BuildOptions) (q : ListRole × List Node) : Bool :=
  (o.comments || q.1 != .comments) && !q.2.isEmpty

/-- The lists below the tree of a gathered node are those over its sequences that are not empty,
unless they are left out with the comments. -/
theorem Gathered.lists_tree (h : n.Gathered) :
    (n.tree o).lists = (n.sequences.filter (hasList o)).map fun q => (listAt q).tree o := by
  have hkind : (fun t : Tree => t.kind == .list) ∘ tree o = isList := by
    funext m
    rw [Function.comp_apply, kind_tree, kind_eq_list]
  rw [Tree.lists, tree_eq, itemTrees_eq, List.filter_map, hkind, List.filter_comm, h.filter_isList,
    List.filter_map, List.filter_filter, List.map_map]
  rfl

/-- The trees of all elements of a gathered list that is kept stand below its tree. -/
theorem Gathered.children_tree {s : Span} {items : List Node} (h : (list role s items).Gathered)
    (hkept : (list role s items).isKept o = true) :
    ((list role s items).tree o).children = items.map (tree o) := by
  have hall : items.filter (isKept o) = items :=
    List.filter_eq_self.2 fun i hi => ((h.2.2 i hi).2 o).trans hkept
  rw [tree_eq, itemTrees_eq, children, hall]

/-- The tree of a gathered list that is kept covers its children. -/
theorem Gathered.covers_tree (h : n.Gathered) (hkept : n.isKept o = true)
    (hlist : n.isList = true) : (n.tree o).Covers := by
  cases n with
  | list role s items =>
    apply Tree.covers_of_span
    · rw [h.children_tree hkept]
      exact mt List.map_eq_nil_iff.1 h.1
    · have hspan : (list role s items).span = Span.coverAll (items.map span) := h.2.1
      rw [h.children_tree hkept, span_tree, List.map_map, hspan]
      exact congrArg _ (List.map_congr_left fun i _ => (span_tree (n := i)).symm)
  | _ => cases hlist

/-- A list in the tree of a node that is no list itself covers its children and has the name of a
role. -/
theorem covers_of_mem_nodes (hn : n.isList = false) (ht : t ∈ (n.tree o).nodes)
    (hlist : t.kind = .list) : t.Covers ∧ ∃ role : ListRole, t.label = some role.name := by
  have isList_of_kind {m : Node} (hm : (m.tree o).kind = .list) : m.isList = true := by
    rw [← kind_eq_list, ← kind_tree (o := o), hm]
    rfl
  -- a list of comments at the root would stay without its elements, so the root must be no list
  rcases exists_kept ht with rfl | ⟨m, hm, hkept, rfl⟩
  · rw [isList_of_kind hlist] at hn
    cases hn
  · have hm := gathered_of_mem_visited (gathered_of_isList hn) hm
    have hmlist := isList_of_kind hlist
    refine ⟨hm.covers_tree hkept hmlist, ?_⟩
    cases m with
    | list role s items => exact ⟨role, label_tree⟩
    | _ => cases hmlist

theorem label_listAt (q : ListRole × List Node) : ((listAt q).tree o).label = some q.1.name :=
  label_tree

theorem hasList_iff {q : ListRole × List Node} :
    hasList o q = true ↔ q.2 ≠ [] ∧ (q.1 = .comments → o.comments = true) := by
  cases h : o.comments <;> simp [hasList, h, and_comm]

/-- There is a list with a role where there is a sequence for it that has one. -/
theorem Gathered.exists_list_iff (h : n.Gathered) :
    (∃ l ∈ (n.tree o).lists, l.label = some role.name) ↔
      ∃ items, (role, items) ∈ n.sequences ∧ items ≠ [] ∧
        (role = .comments → o.comments = true) := by
  rw [h.lists_tree]
  constructor
  · rintro ⟨l, hl, hlabel⟩
    obtain ⟨⟨r, items⟩, hq, rfl⟩ := List.mem_map.1 hl
    obtain ⟨hq, hhas⟩ := List.mem_filter.1 hq
    rw [label_listAt] at hlabel
    obtain rfl : r = role := ListRole.name_injective (Option.some.inj hlabel)
    exact ⟨items, hq, hasList_iff.1 hhas⟩
  · rintro ⟨items, hq, hhas⟩
    exact ⟨_, List.mem_map_of_mem (List.mem_filter.2 ⟨hq, hasList_iff.2 hhas⟩), label_listAt _⟩

/-- A role has at most one list. -/
theorem Gathered.nodup_labels (h : n.Gathered) : ((n.tree o).lists.map Tree.label).Nodup := by
  have hlabels : (n.tree o).lists.map Tree.label =
      ((n.sequences.filter (hasList o)).map Prod.fst).map fun role => some role.name := by
    rw [h.lists_tree, List.map_map, List.map_map]
    exact List.map_congr_left fun q _ => label_listAt q
  rw [hlabels]
  refine List.Nodup.map (fun r r' hr => ListRole.name_injective (Option.some.inj hr)) ?_
  exact n.nodup_roles.sublist (List.filter_sublist.map _)

/-- A list has the trees of all the elements of its sequence. -/
theorem Gathered.children_of_mem_lists {l : Tree} (h : n.Gathered) (hl : l ∈ (n.tree o).lists) :
    ∃ role items, (role, items) ∈ n.sequences ∧ l.label = some role.name ∧
      l.children = items.map (tree o) := by
  rw [h.lists_tree] at hl
  obtain ⟨⟨role, items⟩, hq, rfl⟩ := List.mem_map.1 hl
  obtain ⟨hq, hhas⟩ := List.mem_filter.1 hq
  have hkept := (Bool.and_eq_true_iff.1 hhas).1
  exact ⟨role, items, hq, label_listAt _,
    (gathered_listAt hq (hasList_iff.1 hhas).1).children_tree hkept⟩

/-- A node whose sequence is all that it has holds it without a list. -/
theorem sequences_of_kind (h : n.kind ∈ [.list, .blockStmt, .fieldList, .commentGroup, .package]) :
    n.sequences = [] := by
  simp only [List.mem_cons, List.not_mem_nil, or_false] at h
  cases n with
  | expr e => cases e <;> first | rfl | simp [kind, Expr.kind] at h
  | stmt st => cases st <;> first | rfl | simp [kind, Stmt.kind] at h
  | spec sp => cases sp <;> first | rfl | simp [kind, Spec.kind] at h
  | decl d => cases d <;> first | rfl | simp [kind, Decl.kind] at h
  | _ => first | rfl | simp [kind] at h

end Node

/-- Lists are never empty and cover their elements. In the tree of a node that is no list itself,
such as a file or a package, with or without comments, every list has children, runs from the start
of the first to the end of the last and has the name of a role for its label; below a list, a block,
a field list, a group of comments or a package there is no list. Every node of the tree is the tree
of a node that a walk comes to, and below the tree of such a node the lists are those of its
sequences that are not empty, but the one of the comments of a file only if comments are kept: one
for each role, with the trees of all the elements in their order. -/
theorem Tree.lists_gathered {n : Node} (hn : n.kind ≠ .list) (o : BuildOptions) :
    (∀ t ∈ (n.normalize o).nodes,
      (t.kind = .list → t.Covers ∧ ∃ role : ListRole, t.label = some role.name) ∧
      (t.kind ∈ [.list, .blockStmt, .fieldList, .commentGroup, .package] → t.lists = []) ∧
      ∃ m ∈ n.visited, t = m.normalize o) ∧
    (∀ m ∈ n.visited,
      (∀ role : ListRole, (∃ l ∈ (m.normalize o).lists, l.label = some role.name) ↔
        ∃ items, (role, items) ∈ m.sequences ∧ items ≠ [] ∧
          (role = .comments → o.comments = true)) ∧
      ((m.normalize o).lists.map label).Nodup ∧
      ∀ l ∈ (m.normalize o).lists, ∃ role items, (role, items) ∈ m.sequences ∧
        l.label = some role.name ∧ l.children = items.map (Node.normalize · o)) := by
  have hroot : n.isList = false := by
    rw [← Node.kind_eq_list]
    exact beq_false_of_ne hn
  have hall {m : Node} (hm : m ∈ n.visited) : m.Gathered :=
    Node.gathered_of_mem_visited (Node.gathered_of_isList hroot) hm
  simp only [Node.normalize_eq]
  refine ⟨fun t ht => ⟨Node.covers_of_mem_nodes hroot ht, fun hkind => ?_,
    Node.exists_visited ht⟩, fun m hm => ?_⟩
  · obtain ⟨m, hm, rfl⟩ := Node.exists_visited ht
    rw [Node.kind_tree] at hkind
    rw [(hall hm).lists_tree, Node.sequences_of_kind hkind]
    rfl
  · have h := hall hm
    exact ⟨fun role => h.exists_list_iff, h.nodup_labels, fun l => h.children_of_mem_lists⟩

/-- A file with comments has a list of its declarations and, if comments are kept, one of its
groups; all the lists in its tree cover their elements. -/
theorem Tree.lists_notedFile :
    (∀ t ∈ ((Node.file Node.notedFile).normalize ⟨false⟩).nodes, t.kind = .list → t.Covers) ∧
    (((Node.file Node.notedFile).normalize ⟨true⟩).nodes.filter (·.kind == .list)).map
      (fun t => (t.label, t.span)) =
        [(some "Decls", ⟨26, 35⟩), (some "Specs", ⟨30, 35⟩), (some "Names", ⟨30, 31⟩),
          (some "Comments", ⟨16, 25⟩)] ∧
    ((Node.file Node.notedFile).normalize ⟨true⟩).lists.map label =
      [some "Decls", some "Comments"] ∧
    ((Node.file Node.notedFile).normalize ⟨false⟩).lists.map label = [some "Decls"] := by
  refine ⟨fun t ht => ?_, ?_, ?_, ?_⟩
  · have hkind : (Node.file Node.notedFile).kind ≠ .list := by decide
    have h := (lists_gathered hkind ⟨false⟩).1 t ht
    exact fun hlist => (h.1 hlist).1
  · rw [Node.normalize_eq]
    decide +kernel
  · rw [Node.normalize_eq]
    decide +kernel
  · rw [Node.normalize_eq]
    decide +kernel

end UniformTree
