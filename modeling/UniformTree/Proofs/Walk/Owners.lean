import UniformTree.Proofs.Walk.Visited
/-!
# Who owns the comments that a walk visits

A walk comes to a comment by way of its group, and to a group by way of the node that owns it: as
the doc or the line comment of a declaration, a spec, a field or a package clause, or as one of the
comments of a file. `Node.attached` lists the groups of the first sort, and the comments of a file
are those of its attached groups and of its own: `Node.comments_file`.
-/

namespace UniformTree

namespace Node

/-- A node as a comment, if it is one. -/
def comment? : Node → Option Comment
  | comment c => some c
  | _ => none

/-- A node as a group of comments, if it is one. -/
def group? : Node → Option CommentGroup
  | commentGroup g => some g
  | _ => none

/-- The doc and the line comment of a node. Those of a file are those of its package clause. -/
def owned : Node → List CommentGroup
  | field f => f.doc.toList ++ f.comment.toList
  | spec (.importing _ doc _ _ line) => doc.toList ++ line.toList
  | spec (.value _ doc _ _ _ line) => doc.toList ++ line.toList
  | spec (.type _ doc _ _ _ _ line) => doc.toList ++ line.toList
  | decl (.gen _ doc _ _) => doc.toList
  | decl (.func _ doc _ _ _ _) => doc.toList
  | file f => f.doc.toList
  | _ => []

/-- The comments that a walk visits, in order. -/
def comments (n : Node) : List Comment := n.visited.filterMap comment?

/-- The docs and line comments of the nodes that a walk visits. -/
def attached (n : Node) : List CommentGroup := n.visited.flatMap owned

theorem comments_eq (n : Node) :
    n.comments = n.comment?.toList ++ n.children.flatMap comments := by
  rw [comments, visited_eq, List.filterMap_cons, List.filterMap_flatMap]
  cases n.comment? <;> rfl

theorem attached_eq (n : Node) : n.attached = n.owned ++ n.children.flatMap attached := by
  rw [attached, visited_eq, List.flatMap_cons, List.flatMap_assoc]
  rfl

/-! ## Comments and their groups -/

@[simp] theorem comments_comment (c : Comment) : (comment c).comments = [c] := by
  rw [comments_eq]
  rfl

@[simp] theorem comments_commentGroup (g : CommentGroup) : (commentGroup g).comments = g.list := by
  rw [comments_eq]
  show (g.list.map comment).flatMap comments = g.list
  rw [List.flatMap_map]
  simp

@[simp] theorem attached_comment (c : Comment) : (comment c).attached = [] := by
  rw [attached_eq]
  rfl

@[simp] theorem attached_commentGroup (g : CommentGroup) : (commentGroup g).attached = [] := by
  rw [attached_eq]
  show (g.list.map comment).flatMap attached = []
  rw [List.flatMap_map]
  simp

/-- A node of a file below its declarations: neither a comment nor what holds comments of its
own. -/
def isCore : Node → Bool
  | field _ | fieldList _ | expr _ | stmt _ | spec _ | decl _ => true
  | _ => false

/-- A core node, or a list of core nodes. -/
def isPlain : Node → Bool
  | list _ _ items => items.all isCore
  | n => n.isCore

/-- A plain node or a group of comments. -/
def isPart (n : Node) : Bool := n.isPlain || n.group?.isSome

/-! ## The children of a core node -/

@[simp] theorem group?_field (f : Field) : (field f).group? = none := rfl
@[simp] theorem group?_fieldList (l : FieldList) : (fieldList l).group? = none := rfl
@[simp] theorem group?_expr (e : Expr) : (expr e).group? = none := rfl
@[simp] theorem group?_stmt (s : Stmt) : (stmt s).group? = none := rfl
@[simp] theorem group?_spec (s : Spec) : (spec s).group? = none := rfl
@[simp] theorem group?_decl (d : Decl) : (decl d).group? = none := rfl

@[simp] theorem isPart_field (f : Field) : (field f).isPart = true := rfl
@[simp] theorem isPart_fieldList (l : FieldList) : (fieldList l).isPart = true := rfl
@[simp] theorem isPart_expr (e : Expr) : (expr e).isPart = true := rfl
@[simp] theorem isPart_stmt (s : Stmt) : (stmt s).isPart = true := rfl
@[simp] theorem isPart_spec (s : Spec) : (spec s).isPart = true := rfl
@[simp] theorem isPart_decl (d : Decl) : (decl d).isPart = true := rfl

section Slots

variable {α : Type} {f : α → Node} (role : ListRole) (xs : List α) (g : Option CommentGroup)

@[simp] theorem groups_group : (slot commentGroup g).filterMap group? = g.toList := by
  cases g <;> rfl

@[simp] theorem groups_listOf : (listOf role f xs).filterMap group? = [] := by
  cases xs <;> rfl

@[simp] theorem all_group : (slot commentGroup g).all isPart = true := by cases g <;> rfl

theorem all_listOf (hf : ∀ a, (f a).isCore = true) : (listOf role f xs).all isPart = true := by
  cases xs with
  | nil => rfl
  | cons x xs =>
    have hall : ((x :: xs).map f).all isCore = true :=
      List.all_eq_true.2 (List.forall_mem_map.2 fun a _ => hf a)
    simp only [listOf, List.all_cons, List.all_nil, Bool.and_true, isPart, isPlain, hall,
      Bool.true_or]

@[simp] theorem all_exprs (es : List Expr) : (listOf role expr es).all isPart = true :=
  all_listOf role es fun _ => rfl

@[simp] theorem all_names (ids : List Ident) : (listOf role ident ids).all isPart = true :=
  all_listOf role ids fun _ => rfl

@[simp] theorem all_stmts (ss : List Stmt) : (listOf role stmt ss).all isPart = true :=
  all_listOf role ss fun _ => rfl

@[simp] theorem all_specs (ss : List Spec) : (listOf role spec ss).all isPart = true :=
  all_listOf role ss fun _ => rfl

@[simp] theorem all_decls (ds : List Decl) : (listOf role decl ds).all isPart = true :=
  all_listOf role ds fun _ => rfl

end Slots

theorem isPart_of_isCore {n : Node} (h : n.isCore = true) : n.isPart = true := by
  cases n <;> first | rfl | cases h

theorem group?_of_isCore {n : Node} (h : n.isCore = true) : n.group? = none := by
  cases n <;> first | rfl | cases h

/-- The groups of comments among the children of a plain node are those that it owns, and its other
children are plain. -/
theorem children_of_isPlain {n : Node} (h : n.isPlain = true) :
    n.children.filterMap group? = n.owned ∧ n.children.all isPart = true := by
  cases n with
  | comment | commentGroup | file | package => cases h
  | list role s items =>
    have hitems : ∀ c ∈ items, c.isCore = true := List.all_eq_true.1 h
    exact ⟨List.filterMap_eq_nil_iff.2 fun c hc => group?_of_isCore (hitems c hc),
      List.all_eq_true.2 fun c hc => isPart_of_isCore (hitems c hc)⟩
  | field f => simp [children, List.filterMap_cons, owned]
  | fieldList l => simp [children, owned]
  | expr e => cases e <;> simp [children, ofExpr, List.filterMap_cons, owned]
  | stmt s => cases s <;> simp [children, ofStmt, List.filterMap_cons, owned]
  | spec s => cases s <;> simp [children, ofSpec, List.filterMap_cons, owned]
  | decl d => cases d <;> simp [children, ofDecl, List.filterMap_cons, owned]

/-! ## The comments below a node -/

/-- The comments below a node are those of its attached groups, in some order. -/
def IsCovered (n : Node) : Prop := n.comments.Perm (n.attached.flatMap (·.list))

theorem eq_of_group? {n : Node} {g : CommentGroup} (h : n.group? = some g) :
    n = commentGroup g := by
  cases n <;> cases h
  rfl

/-- In a row the groups come in addition to what is attached below the other nodes. -/
theorem comments_row {ns : List Node} (h : ∀ n ∈ ns, n.isPlain = true → n.IsCovered)
    (hns : ns.all isPart = true) : (ns.flatMap comments).Perm
      ((ns.filterMap group? ++ ns.flatMap attached).flatMap (·.list)) := by
  induction ns with
  | nil => exact .nil
  | cons n ns ih =>
    rw [List.all_cons, Bool.and_eq_true] at hns
    have hrest := ih (fun m hm => h m (List.mem_cons_of_mem n hm)) hns.2
    rw [List.flatMap_cons]
    cases hg : n.group? with
    | some g =>
      rw [List.filterMap_cons_some hg, List.flatMap_cons, eq_of_group? hg, comments_commentGroup,
        attached_commentGroup, List.nil_append, List.cons_append, List.flatMap_cons]
      exact hrest.append_left g.list
    | none =>
      -- what is no group is plain, so the comments below it are covered
      have hplain : n.isPlain = true := by
        have := hns.1
        rwa [isPart, hg, Option.isSome_none, Bool.or_false] at this
      have hn : n.comments.Perm (n.attached.flatMap (·.list)) := h n List.mem_cons_self hplain
      rw [List.filterMap_cons_none hg, List.flatMap_cons]
      refine (hn.append hrest).trans ?_
      simp only [List.flatMap_append]
      rw [← List.append_assoc, ← List.append_assoc]
      exact List.perm_append_comm.append_right _

/-- The comments below a plain node are covered once those of its plain children are. -/
theorem isCovered_of_isPlain (n : Node) (hn : n.isPlain = true) : n.IsCovered := by
  induction n using induction with
  | step n ih =>
    obtain ⟨hgroups, hall⟩ := children_of_isPlain hn
    have hnone : n.comment? = none := by
      cases n <;> first | rfl | cases hn
    have hrow := comments_row ih hall
    rw [hgroups, ← attached_eq] at hrow
    rw [IsCovered, comments_eq, hnone]
    exact hrow

/-! ## Files -/

theorem comments_groups (gs : List CommentGroup) :
    (listOf .comments commentGroup gs).flatMap comments = gs.flatMap (·.list) := by
  cases gs with
  | nil => rfl
  | cons g gs =>
    have h (s : Span) : (list .comments s ((g :: gs).map commentGroup)).comments =
        ((g :: gs).map commentGroup).flatMap comments := comments_eq _
    rw [listOf, List.flatMap_singleton, h, List.flatMap_map]
    · simp only [comments_commentGroup]
    · exact List.cons_ne_nil g gs

theorem attached_groups (gs : List CommentGroup) :
    (listOf .comments commentGroup gs).flatMap attached = [] := by
  cases gs with
  | nil => rfl
  | cons g gs =>
    have h (s : Span) : (list .comments s ((g :: gs).map commentGroup)).attached =
        ((g :: gs).map commentGroup).flatMap attached := attached_eq _
    rw [listOf, List.flatMap_singleton, h, List.flatMap_map]
    · simp
    · exact List.cons_ne_nil g gs

/-- The children of a file are a row of plain nodes and of the groups that it owns, and then the
list of its own groups. -/
theorem exists_row (f : File) : ∃ row : List Node,
    (file f).children = row ++ listOf .comments commentGroup f.comments ∧
      row.filterMap group? = (file f).owned ∧ row.all isPart = true := by
  refine ⟨slot commentGroup f.doc ++ ident f.name :: listOf .decls decl f.decls, ?_, ?_, ?_⟩
  · simp [children]
  · simp [List.filterMap_cons, owned]
  · simp only [List.all_append, List.all_cons, all_group, isPart_expr, all_decls, Bool.and_self]

/-- What is attached in a file is what it owns and what is attached below its row. -/
theorem attached_file {f : File} {row : List Node}
    (h : (file f).children = row ++ listOf .comments commentGroup f.comments) :
    (file f).attached = (file f).owned ++ row.flatMap attached := by
  rw [attached_eq, h, List.flatMap_append, attached_groups, List.append_nil]

/-- A walk of a file comes to the comments of its attached groups and of its own, each once. -/
theorem comments_file (f : File) : (file f).comments.Perm
    (((file f).attached ++ f.comments).flatMap (·.list)) := by
  obtain ⟨row, hchildren, hgroups, hall⟩ := exists_row f
  have hrow := comments_row (fun c _ => isCovered_of_isPlain c) hall
  have hcomments : (file f).comments = row.flatMap comments ++ f.comments.flatMap (·.list) := by
    rw [comments_eq, hchildren, List.flatMap_append, comments_groups]
    rfl
  rw [hgroups, ← attached_file hchildren] at hrow
  have happend : ((file f).attached ++ f.comments).flatMap (·.list) =
      (file f).attached.flatMap (·.list) ++ f.comments.flatMap (·.list) := List.flatMap_append
  rw [hcomments, happend]
  exact hrow.append_right _

/-! ## The groups that a walk visits -/

theorem not_mem_visited_comment (c : Comment) (g : CommentGroup) :
    commentGroup g ∉ (comment c).visited := by
  rw [visited_eq]
  simp [children]

theorem eq_of_mem_visited_group {g h : CommentGroup}
    (hg : commentGroup g ∈ (commentGroup h).visited) : g = h := by
  rw [visited_eq, List.mem_cons] at hg
  rcases hg with hg | hg
  · cases hg
    rfl
  · obtain ⟨c, hc, hg⟩ := List.mem_flatMap.1 hg
    obtain ⟨c, -, rfl⟩ := List.mem_map.1 hc
    exact absurd hg (not_mem_visited_comment c g)

/-- A group that is visited below a row is in the row or is attached there. -/
theorem mem_groups_row {g : CommentGroup} {ns : List Node} (hns : ns.all isPart = true)
    (h : ∀ n ∈ ns, n.isPlain = true → commentGroup g ∈ n.visited → g ∈ n.attached)
    (hg : commentGroup g ∈ ns.flatMap visited) :
    g ∈ ns.filterMap group? ++ ns.flatMap attached := by
  obtain ⟨n, hn, hg⟩ := List.mem_flatMap.1 hg
  rw [List.mem_append]
  cases hgroup : n.group? with
  | some g' =>
    rw [eq_of_group? hgroup] at hg
    obtain rfl := eq_of_mem_visited_group hg
    exact .inl (List.mem_filterMap.2 ⟨n, hn, hgroup⟩)
  | none =>
    have hpart : n.isPart = true := List.all_eq_true.1 hns n hn
    rw [isPart, hgroup, Option.isSome_none, Bool.or_false] at hpart
    exact .inr (List.mem_flatMap.2 ⟨n, hn, h n hn hpart hg⟩)

theorem mem_attached_of_isPlain {g : CommentGroup} (n : Node) (hn : n.isPlain = true)
    (hg : commentGroup g ∈ n.visited) : g ∈ n.attached := by
  induction n using induction with
  | step n ih =>
    obtain ⟨hgroups, hall⟩ := children_of_isPlain hn
    rw [visited_eq, List.mem_cons] at hg
    rcases hg with rfl | hg
    · cases hn
    · rw [attached_eq, ← hgroups]
      exact mem_groups_row hall ih hg

theorem mem_of_mem_visited_groups {g : CommentGroup} {gs : List CommentGroup}
    (hg : commentGroup g ∈ (listOf .comments commentGroup gs).flatMap visited) : g ∈ gs := by
  cases gs with
  | nil => cases hg
  | cons h hs =>
    rw [listOf, List.flatMap_singleton, visited_eq, List.mem_cons] at hg
    · rcases hg with hg | hg
      · cases hg
      · obtain ⟨n, hn, hg⟩ := List.mem_flatMap.1 hg
        obtain ⟨g', hg', rfl⟩ := List.mem_map.1 hn
        rw [eq_of_mem_visited_group hg]
        exact hg'
    · exact List.cons_ne_nil h hs

/-- A group that a walk of a file visits is attached in it or is one of its own. -/
theorem mem_groups_file {f : File} {g : CommentGroup} (hg : commentGroup g ∈ (file f).visited) :
    g ∈ (file f).attached ++ f.comments := by
  obtain ⟨row, hchildren, hgroups, hall⟩ := exists_row f
  rw [visited_eq, List.mem_cons, hchildren, List.flatMap_append, List.mem_append] at hg
  rw [attached_file hchildren, ← hgroups, List.mem_append]
  rcases hg with hg | hg | hg
  · cases hg
  · exact .inl (mem_groups_row hall (fun n _ => mem_attached_of_isPlain n) hg)
  · exact .inr (mem_of_mem_visited_groups hg)

end Node

end UniformTree
