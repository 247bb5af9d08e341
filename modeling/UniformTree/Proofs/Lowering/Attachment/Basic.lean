import UniformTree.Proofs.Comment.Free
import UniformTree.Proofs.Lowering.Readings.Rows
/-!
# Owners on the course of lowering

Whether an owner has got all that is its own shows in the end, by the groups that are left. So a
step of lowering is judged by the pool in which the whole ends: `Lower.Within` says what holds of a
result if the step lies between the comments of a tree and those that are left. With it each node of
a source tree is led back to a node of the concrete tree (`Traced`), and each owner to the groups
that are its own (`Claimed`).
-/

namespace UniformTree

open Concrete Lowering

/-! ## What is due to an owner -/

/-- The doc documents the node, and no group that is left does. -/
structure Documents (src : Placed) (root : Concrete) (left : List Slot) (n : Concrete)
    (doc : Option CommentGroup) : Prop where
  sound : ∀ g ∈ doc, ∃ s ∈ (CommentPool.ofTree src root).slots.toList,
    s.group = g ∧ Request.documents src n s = true
  complete : ∀ s ∈ left, Request.documents src n s = false

/-- The code that comes after a node and before a group. -/
def Concrete.codeBetween (root n : Concrete) (s : Slot) : List Concrete :=
  root.leaves.filter fun leaf => leaf.isCode && n.stop ≤ leaf.start && leaf.stop ≤ s.startByte

/-- A group trails a node, before any other group that does and is left. All code between them
stands on the last row of the node. -/
structure Trailer (src : Placed) (root : Concrete) (left : List Slot) (n : Concrete) (s : Slot) :
    Prop where
  mem : s ∈ (CommentPool.ofTree src root).slots.toList
  trails : Request.trails src n s = true
  first : ∀ t ∈ left, Request.trails src n t = true → s.startByte < t.startByte
  row : ∀ leaf ∈ root.codeBetween n s, src.startRow leaf = src.endRow n

/-- The line comment trails the node; without one no group that is left does. -/
structure Trails (src : Placed) (root : Concrete) (left : List Slot) (n : Concrete)
    (line : Option CommentGroup) : Prop where
  sound : ∀ g ∈ line, ∃ s, s.group = g ∧ Trailer src root left n s
  complete : line = none → ∀ t ∈ left, Request.trails src n t = false

namespace Node

/-- The doc of a node, if it has one. -/
def doc? : Node → Option CommentGroup
  | field f => f.doc
  | spec (.importing _ doc _ _ _) => doc
  | spec (.value _ doc _ _ _ _) => doc
  | spec (.type _ doc _ _ _ _ _) => doc
  | decl (.gen _ doc _ _) => doc
  | decl (.func _ doc _ _ _ _) => doc
  | _ => none

/-- The line comment of a node, if it has one. -/
def line? : Node → Option CommentGroup
  | field f => f.comment
  | spec (.importing _ _ _ _ line) => line
  | spec (.value _ _ _ _ _ line) => line
  | spec (.type _ _ _ _ _ _ line) => line
  | _ => none

/-- Specs and fields are on lines of their own, which comments may trail. -/
def hasLine : Node → Bool
  | field _ | spec _ => true
  | _ => false

/-- The owners of comments that a node is or holds directly: a declaration, a spec, the fields of a
struct type and the elements of an interface type. -/
def owners : Node → List Node
  | expr (.structType _ fields) => fields.list.map field
  | expr (.interfaceType _ methods) => methods.list.map field
  | spec s => [spec s]
  | decl (.gen s doc tok specs) => [decl (.gen s doc tok specs)]
  | decl (.func s doc recv name type body) => [decl (.func s doc recv name type body)]
  | _ => []

end Node

/-- A node is read as an owner of comments. -/
def Reading.isOwner : Reading → Bool
  | decl | spec _ | structField | element => true
  | _ => false

/-! ## Courses -/

/-- A tree over a source, and the comments that are left after it is lowered. -/
structure Course where
  src : Placed
  root : Concrete
  last : CommentPool

namespace Course

variable (w : Course)

/-- The comments of the tree. -/
def first : CommentPool := CommentPool.ofTree w.src w.root

/-- The groups that are left. -/
def left : List Slot := w.last.free

end Course

namespace Lower

variable {α β : Type} {w : Course} {P : α → Prop} {Q : β → Prop}

/-- A step only takes groups, and its result satisfies a predicate if the step lies on the
course. -/
structure Within (w : Course) (m : Lower α) (P : α → Prop) : Prop where
  before : ∀ pool : CommentPool, pool.Before (m pool).2
  holds : ∀ pool, w.first.Before pool → (m pool).2.Before w.last → P (m pool).1

theorem Within.pure {a : α} (h : P a) : Within w (pure a) P where
  before pool := .refl pool
  holds _ _ _ := h

/-- One step after the other. What is known of the first result may be used of the second one. -/
theorem Within.bind {m : Lower α} {f : α → Lower β} (hm : m.Within w P)
    (hf : ∀ a, (f a).Within w fun b => P a → Q b) : Within w (m >>= f) Q where
  before pool := (hm.before pool).trans ((hf (m pool).1).before (m pool).2)
  holds pool hfirst hlast := by
    have hstep := hm.before pool
    have hrest := (hf (m pool).1).before (m pool).2
    apply (hf (m pool).1).holds (m pool).2 (hfirst.trans hstep) hlast
    exact hm.holds pool hfirst (hrest.trans hlast)

theorem Within.map {m : Lower α} {f : α → β} (hm : m.Within w P) (hf : ∀ a, P a → Q (f a)) :
    Within w (f <$> m) Q where
  before := hm.before
  holds pool hfirst hlast := hf _ (hm.holds pool hfirst hlast)

theorem Within.imp {m : Lower α} {P' : α → Prop} (hm : m.Within w P) (h : ∀ a, P a → P' a) :
    m.Within w P' := ⟨hm.before, fun pool hfirst hlast => h _ (hm.holds pool hfirst hlast)⟩

theorem Within.and {m : Lower α} {P' : α → Prop} (hm : m.Within w P) (hm' : m.Within w P') :
    m.Within w fun a => P a ∧ P' a where
  before := hm.before
  holds pool hfirst hlast := ⟨hm.holds pool hfirst hlast, hm'.holds pool hfirst hlast⟩

/-- What holds of any result holds of it on the course. -/
theorem Within.of_yields {m : Lower α} {P' : α → Prop} (hm : m.Within w P) (h : m.Yields P') :
    m.Within w P' := ⟨hm.before, fun pool _ _ => h pool⟩

theorem Within.mapM {f : α → Lower β} {xs : List α} (h : ∀ x ∈ xs, (f x).Within w Q) :
    (xs.mapM f).Within w fun ys => ∀ y ∈ ys, Q y := by
  induction xs with
  | nil =>
    rw [List.mapM_nil]
    exact .pure (by simp)
  | cons x xs ih =>
    rw [List.mapM_cons]
    apply (h x List.mem_cons_self).bind
    intro y
    apply (ih fun z hz => h z (List.mem_cons_of_mem x hz)).bind
    intro ys
    apply Within.pure
    intro hys hy
    exact List.forall_mem_cons.2 ⟨hy, hys⟩

end Lower

/-! ## Requests on a course -/

namespace Lowering

open CommentPool Request

variable {w : Course} {n : Concrete}

/-- A node that asks for its doc gets what is due to it. -/
theorem within_takeDoc (n : Concrete) : (takeDoc w.src n).Within w fun doc =>
    w.root.Ordered → Documents w.src w.root w.left n doc where
  before pool := before_takeIn pool _ _ _
  holds pool hfirst hlast hroot := by
    have hlaid := hfirst.laid (laid_ofTree w.src hroot)
    obtain ⟨hdoc, hfree⟩ := takeDoc_eq_find hlaid n
    have honly := (pairwise_documents w.src hroot n).sublist hfirst.sublist_slots
    have hleft := hlast.free
    rw [hfree] at hleft
    constructor
    · intro g hg
      rw [hdoc] at hg
      obtain ⟨s, hs, rfl⟩ := Option.map_eq_some_iff.1 hg
      exact ⟨s, hfirst.sublist_slots.subset (List.mem_of_find?_eq_some hs), rfl,
        List.find?_some hs⟩
    · intro t ht
      have hin := hleft.subset ht
      rw [Bool.eq_false_iff]
      intro hdocs
      cases hfound : pool.free.find? (documents w.src n) with
      | none => exact List.find?_eq_none.1 hfound t (List.mem_of_mem_eraseP hin) hdocs
      | some s =>
        have hnot := rel_of_mem_eraseP honly hfound hin hdocs (List.find?_some hfound)
        rw [hdocs] at hnot
        cases hnot

/-- Code between a node and a group that trails it does not leave the row. -/
theorem row_of_mem_codeBetween {src : Placed} {root leaf : Concrete} {s : Slot}
    (hroot : root.Ordered) (hs : s.Lies src) (htrails : trails src n s = true)
    (hleaf : leaf ∈ root.codeBetween n s) : src.startRow leaf = src.endRow n := by
  obtain ⟨hin, hplace⟩ := List.mem_filter.1 hleaf
  simp only [Bool.and_eq_true, decide_eq_true_eq] at hplace
  obtain ⟨⟨-, hafter⟩, hbefore⟩ := hplace
  obtain ⟨-, -, hrow⟩ := trails_iff.1 htrails
  have hle := hroot.leaf_start_le hin
  apply Nat.le_antisymm
  · rw [← hrow, hs.startRow]
    exact src.source.row_mono (Nat.le_trans hle hbefore)
  · exact src.source.row_mono hafter

/-- A node that asks for its line comment gets what is due to it. -/
theorem within_takeLine (n : Concrete) : (takeLine w.src n).Within w fun line =>
    w.root.Ordered → Trails w.src w.root w.left n line where
  before pool := before_takeIn pool _ _ _
  holds pool hfirst hlast hroot := by
    have hlaid := hfirst.laid (laid_ofTree w.src hroot)
    obtain ⟨hline, hfree⟩ := takeLine_eq_find hlaid n
    have hleft := hlast.free
    rw [hfree] at hleft
    have horder : pool.free.Pairwise fun s t => s.startByte < t.startByte := by
      apply (hlaid.apart.sublist List.filter_sublist).imp_of_mem
      intro s t hs _ hst
      have hle := (hlaid.lies s (List.mem_of_mem_filter hs)).start_le
      omega
    constructor
    · intro g hg
      rw [hline] at hg
      obtain ⟨s, hs, rfl⟩ := Option.map_eq_some_iff.1 hg
      have hmem := hfirst.sublist_slots.subset (List.mem_of_find?_eq_some hs)
      have htrails := List.find?_some hs
      apply Exists.intro s
      refine ⟨rfl, hmem, htrails, ?_, ?_⟩
      · intro t ht htrails
        exact rel_of_mem_eraseP (R := fun s t => s.startByte < t.startByte) horder hs
          (hleft.subset ht) htrails
      · intro leaf hleaf
        exact row_of_mem_codeBetween hroot ((laid_ofTree w.src hroot).lies s hmem) htrails hleaf
    · intro hnone t ht
      rw [hline, Option.map_eq_none_iff] at hnone
      have hnot := List.find?_eq_none.1 hnone t (List.mem_of_mem_eraseP (hleft.subset ht))
      exact Bool.eq_false_iff.2 hnot

end Lowering

/-! ## Where nodes come from -/

/-- A node that holds rows of nodes is what some node of the tree is lowered to. -/
def Sourced (w : Course) (m : Node) : Prop :=
  m.rows ≠ [] → ∃ r, ∃ c ∈ w.root.preorder, r.isDirect c = true ∧ Lowered w.src r c m

/-- A node has the comments that are due to a node of the tree. -/
structure Attached (w : Course) (c : Concrete) (m : Node) : Prop where
  doc : Documents w.src w.root w.left c m.doc?
  line : m.hasLine = true → Trails w.src w.root w.left c m.line?

/-- A node is what some node of the tree is lowered to as an owner, and has the comments that are
due to it. -/
def Claimed (w : Course) (m : Node) : Prop :=
  ∃ r, ∃ c ∈ w.root.preorder, r.isOwner = true ∧ Lowered w.src r c m ∧
    (w.root.Ordered → Attached w c m)

/-- Every node that a walk visits is led back to the tree. -/
structure Traced (w : Course) (m : Node) : Prop where
  sourced : ∀ o ∈ m.visited, Sourced w o
  claimed : ∀ o ∈ m.visited, ∀ x ∈ o.owners, Claimed w x

/-- A node is traced but for its own rows. -/
structure Grounded (w : Course) (m : Node) : Prop where
  owners : ∀ x ∈ m.owners, Claimed w x
  children : ∀ c ∈ m.children, Traced w c

/-- A node has the comments that are due to a node of the tree, and its children are traced. -/
structure Served (w : Course) (c : Concrete) (m : Node) : Prop where
  attached : w.root.Ordered → Attached w c m
  children : ∀ d ∈ m.children, Traced w d

section Traced

variable {w : Course} {m : Node}

theorem traced_iff : Traced w m ↔ Sourced w m ∧ Grounded w m := by
  constructor
  · rintro ⟨hsourced, hclaimed⟩
    refine ⟨hsourced m m.mem_visited_self, hclaimed m m.mem_visited_self, ?_⟩
    intro c hc
    exact ⟨fun o ho => hsourced o (Node.mem_visited_of_child hc ho),
      fun o ho => hclaimed o (Node.mem_visited_of_child hc ho)⟩
  · rintro ⟨hsourced, howners, hchildren⟩
    constructor
    · rw [Node.visited_eq, List.forall_mem_cons]
      refine ⟨hsourced, ?_⟩
      intro o ho
      obtain ⟨c, hc, ho⟩ := List.mem_flatMap.1 ho
      exact (hchildren c hc).sourced o ho
    · rw [Node.visited_eq, List.forall_mem_cons]
      refine ⟨howners, ?_⟩
      intro o ho
      obtain ⟨c, hc, ho⟩ := List.mem_flatMap.1 ho
      exact (hchildren c hc).claimed o ho

/-- A node without rows need only be grounded. -/
theorem Grounded.traced (h : Grounded w m) (hrows : m.rows = []) : Traced w m :=
  traced_iff.2 ⟨fun hne => absurd hrows hne, h⟩

/-- A node without rows that owns nothing is traced if its children are. -/
theorem traced_of_children (hrows : m.rows = []) (howners : m.owners = [])
    (h : ∀ c ∈ m.children, Traced w c) : Traced w m := by
  apply Grounded.traced _ hrows
  constructor
  · simp [howners]
  · exact h

@[simp] theorem traced_ident (id : Ident) : Traced w (.ident id) :=
  traced_of_children rfl rfl (by simp [Node.children, Node.ofExpr])

@[simp] theorem traced_basicLit (lit : BasicLit) : Traced w (.basicLit lit) :=
  traced_of_children rfl rfl (by simp [Node.children, Node.ofExpr])

@[simp] theorem traced_badExpr (s : Span) : Traced w (.expr (.bad s)) :=
  traced_of_children rfl rfl (by simp [Node.children, Node.ofExpr])

@[simp] theorem traced_badStmt (s : Span) : Traced w (.stmt (.bad s)) :=
  traced_of_children rfl rfl (by simp [Node.children, Node.ofStmt])

@[simp] theorem traced_commentGroup (g : CommentGroup) : Traced w (.commentGroup g) := by
  apply traced_of_children rfl rfl
  intro c hc
  obtain ⟨comment, -, rfl⟩ := List.mem_map.1 hc
  exact traced_of_children rfl rfl (by simp [Node.children])

/-- A list of nodes is traced if each of them is. -/
@[simp] theorem forall_mem_listOf {α : Type} {role : ListRole} {f : α → Node} {xs : List α} :
    (∀ c ∈ Node.listOf role f xs, Traced w c) ↔ ∀ a ∈ xs, Traced w (f a) := by
  cases xs with
  | nil => simp [Node.listOf]
  | cons x xs =>
    rw [Node.listOf, List.forall_mem_singleton, ← List.forall_mem_map (f := f)]
    · constructor
      · intro h
        exact (traced_iff.1 h).2.children
      · intro h
        exact traced_of_children rfl rfl h
    · exact List.cons_ne_nil x xs

end Traced

/-! ## Readings on a course -/

namespace Lowering

open Lower

variable {w : Course} {r : Reading} {n : Concrete} {levels : Nat} {α : Type} {node : α → Node}
  {m : Lower α}

/-- What belongs to a reading of a node of the tree is traced once it is grounded. -/
theorem within_traced (hr : r.lower w.src (upTo w.src levels) n = node <$> m)
    (hn : n ∈ w.root.preorder) (hlevels : r.levelsBelow n ≤ levels) (hdirect : r.isDirect n = true)
    (h : m.Within w fun a => Grounded w (node a)) : m.Within w fun a => Traced w (node a) := by
  apply (h.and (h.of_yields (yields_made hr hlevels))).imp
  rintro a ⟨hground, hlowered⟩
  exact traced_iff.2 ⟨fun _ => ⟨r, n, hn, hdirect, hlowered⟩, hground⟩

/-- What is read as an owner and has the comments that are due to it is claimed. -/
theorem within_claimed (hr : r.lower w.src (upTo w.src levels) n = node <$> m)
    (hn : n ∈ w.root.preorder) (hlevels : r.levelsBelow n ≤ levels) (howner : r.isOwner = true)
    (h : m.Within w fun a => Served w n (node a)) :
    m.Within w fun a => Claimed w (node a) ∧ ∀ c ∈ (node a).children, Traced w c := by
  apply (h.and (h.of_yields (yields_made hr hlevels))).imp
  rintro a ⟨hserved, hlowered⟩
  exact ⟨⟨r, n, hn, howner, hlowered, hserved.attached⟩, hserved.children⟩

/-- An owner of its own comments that has those that are due to it is traced. -/
theorem within_served (hr : r.lower w.src (upTo w.src levels) n = node <$> m)
    (hn : n ∈ w.root.preorder) (hlevels : r.levelsBelow n ≤ levels) (howner : r.isOwner = true)
    (hdirect : r.isDirect n = true) (hself : ∀ a, ∀ x ∈ (node a).owners, x = node a)
    (h : m.Within w fun a => Served w n (node a)) : m.Within w fun a => Traced w (node a) := by
  apply within_traced hr hn hlevels hdirect
  apply (within_claimed hr hn hlevels howner h).imp
  rintro a ⟨hclaimed, hchildren⟩
  refine ⟨?_, hchildren⟩
  intro x hx
  rw [hself a x hx]
  exact hclaimed

end Lowering

end UniformTree
