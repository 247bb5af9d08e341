import UniformTree.Proofs.Walk.Owners
import UniformTree.Tree.Builder
/-!
# Where commentary stands

Below a declaration a walk comes to no list of comments, so a file has only one: that of the groups
that it keeps (`Node.items_of_mem_visited`). Commentary holds nothing but commentary, in a file as
in a package (`Node.isCommentary_of_child`).
-/

namespace UniformTree

namespace Node

/-- A list of comments. -/
def isRemarks : Node → Bool
  | list role _ _ => role == .comments
  | _ => false

@[simp] theorem isRemarks_comment (c : Comment) : (comment c).isRemarks = false := rfl
@[simp] theorem isRemarks_group (g : CommentGroup) : (commentGroup g).isRemarks = false := rfl
@[simp] theorem isRemarks_field (f : Field) : (field f).isRemarks = false := rfl
@[simp] theorem isRemarks_fieldList (l : FieldList) : (fieldList l).isRemarks = false := rfl
@[simp] theorem isRemarks_expr (e : Expr) : (expr e).isRemarks = false := rfl
@[simp] theorem isRemarks_stmt (s : Stmt) : (stmt s).isRemarks = false := rfl
@[simp] theorem isRemarks_spec (s : Spec) : (spec s).isRemarks = false := rfl
@[simp] theorem isRemarks_decl (d : Decl) : (decl d).isRemarks = false := rfl

theorem isRemarks_of_isCore {n : Node} (h : n.isCore = true) : n.isRemarks = false := by
  cases n <;> first | rfl | cases h

@[simp] theorem forall_mem_listOf_isRemarks {α : Type} {f : α → Node} {role : ListRole}
    {xs : List α} :
    (∀ c ∈ listOf role f xs, c.isRemarks = false) ↔ role ≠ .comments ∨ xs = [] := by
  cases xs <;> simp [listOf, isRemarks]

/-- No child of a plain node is a list of comments. -/
theorem isRemarks_of_child {n : Node} (h : n.isPlain = true) :
    ∀ c ∈ n.children, c.isRemarks = false := by
  cases n with
  | comment | commentGroup | file | package => cases h
  | list role s items => exact fun c hc => isRemarks_of_isCore (List.all_eq_true.1 h c hc)
  | field f => simp [children, or_imp, forall_and]
  | fieldList l => simp [children]
  | expr e => cases e <;> simp [children, ofExpr, or_imp, forall_and]
  | stmt s => cases s <;> simp [children, ofStmt, or_imp, forall_and]
  | spec s => cases s <;> simp [children, ofSpec, or_imp, forall_and]
  | decl d => cases d <;> simp [children, ofDecl, or_imp, forall_and]

theorem isRemarks_of_mem_group {g : CommentGroup} {m : Node}
    (hm : m ∈ (commentGroup g).visited) : m.isRemarks = false := by
  rw [visited_eq, List.mem_cons] at hm
  rcases hm with rfl | hm
  · rfl
  · obtain ⟨n, hn, hm⟩ := List.mem_flatMap.1 hm
    obtain ⟨c, -, rfl⟩ := List.mem_map.1 hn
    rw [visited_eq] at hm
    rw [List.mem_singleton.1 hm, isRemarks_comment]

/-- Below a part that is no list of comments a walk comes to none. -/
theorem isRemarks_of_mem_part {n m : Node} (hn : n.isPart = true) (hr : n.isRemarks = false)
    (hm : m ∈ n.visited) : m.isRemarks = false := by
  induction n using induction with
  | step n ih =>
    cases hg : n.group? with
    | some g => exact isRemarks_of_mem_group (eq_of_group? hg ▸ hm)
    | none =>
      have hplain : n.isPlain = true := by
        rwa [isPart, hg, Option.isSome_none, Bool.or_false] at hn
      rw [visited_eq, List.mem_cons] at hm
      rcases hm with rfl | hm
      · exact hr
      · obtain ⟨c, hc, hm⟩ := List.mem_flatMap.1 hm
        exact ih c hc (List.all_eq_true.1 (children_of_isPlain hplain).2 c hc)
          (isRemarks_of_child hplain c hc) hm

/-- The one list of comments that a walk of a file comes to is that of its own groups. -/
theorem items_of_mem_visited {f : File} {s : Span} {items : List Node}
    (h : list .comments s items ∈ (file f).visited) :
    items = f.comments.map commentGroup := by
  -- apart from its own groups all the children of a file are parts, and none of them such a list
  have hpart {c : Node} (hc : c.isPart = true) (hr : c.isRemarks = false) :
      list .comments s items ∉ c.visited := fun hm => by
    cases isRemarks_of_mem_part hc hr hm
  rw [visited_eq, List.mem_cons] at h
  obtain ⟨c, hc, h⟩ := List.mem_flatMap.1 (h.resolve_left Node.noConfusion)
  simp only [children, List.mem_append, List.mem_cons] at hc
  rcases hc with hc | rfl | hc | hc
  · have hall : c.isPart = true := List.all_eq_true.1 (all_group f.doc) c hc
    have hr : ∀ c ∈ slot commentGroup f.doc, c.isRemarks = false := by simp
    exact absurd h (hpart hall (hr c hc))
  · exact absurd h (hpart rfl rfl)
  · have hall : c.isPart = true := List.all_eq_true.1 (all_decls .decls f.decls) c hc
    have hr : ∀ c ∈ listOf .decls decl f.decls, c.isRemarks = false := by simp
    exact absurd h (hpart hall (hr c hc))
  · cases hgs : f.comments with
    | nil => simp [hgs, listOf] at hc
    | cons g gs =>
      rw [hgs, listOf, List.mem_singleton] at hc
      · subst hc
        rw [visited_eq, List.mem_cons] at h
        rcases h with h | h
        · cases h
          rfl
        · obtain ⟨d, hd, h⟩ := List.mem_flatMap.1 h
          obtain ⟨g', -, rfl⟩ := List.mem_map.1 hd
          cases isRemarks_of_mem_group h
      · exact List.cons_ne_nil g gs

/-! ## Commentary holds commentary -/

/-- What a walk of a file comes to below commentary is commentary. -/
theorem isCommentary_of_child {f : File} {n : Node} (hn : n ∈ (file f).visited)
    (h : n.isCommentary = true) : ∀ c ∈ n.children, c.isCommentary = true := by
  cases n with
  | comment => simp [children]
  | commentGroup g => exact List.forall_mem_map.2 fun c _ => rfl
  | list role s items =>
    obtain rfl : role = .comments := by simpa [isCommentary] using h
    rw [children, items_of_mem_visited hn]
    exact List.forall_mem_map.2 fun g _ => rfl
  | field | fieldList | file | package => cases h
  | expr e => cases e <;> cases h
  | stmt s => cases s <;> cases h
  | spec s => cases s <;> cases h
  | decl d => cases d <;> cases h

/-- What a walk of a package comes to below commentary is commentary. -/
theorem isCommentary_of_child_package {p : Package} {n : Node} (hn : n ∈ (package p).visited)
    (h : n.isCommentary = true) : ∀ c ∈ n.children, c.isCommentary = true := by
  rw [visited_eq, List.mem_cons] at hn
  rcases hn with rfl | hn
  · cases h
  · obtain ⟨c, hc, hn⟩ := List.mem_flatMap.1 hn
    obtain ⟨f, -, rfl⟩ := List.mem_map.1 hc
    exact isCommentary_of_child hn h

end Node

end UniformTree
