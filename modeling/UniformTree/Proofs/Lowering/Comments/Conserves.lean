import Mathlib.Algebra.Ring.Nat
import UniformTree.Proofs.Comment.Pool
import UniformTree.Proofs.Lowering.Yields
import UniformTree.Proofs.Walk.Owners
/-!
# What lowering does with the comments that it takes

A group that is taken out of the pool has to end up in what is returned, or else it is lost. So one
group is counted: in the pool before, in the pool after, and in what is returned. `Lower.Conserves`
says that nothing is handed out twice, and under a condition that nothing is lost; it is carried
through `do` notation by holding what was returned so far.
-/

namespace UniformTree

/-- How often a group remains in a pool. -/
def CommentPool.left (g : CommentGroup) (pool : CommentPool) : Nat := pool.remaining.count g

namespace Node

variable {g : CommentGroup}

/-- How often a group is attached to a node that a walk of a node visits. -/
def tally (g : CommentGroup) (n : Node) : Nat := n.attached.count g

/-- The same for some nodes. -/
def tallyAll {α : Type} (g : CommentGroup) (f : α → Node) (xs : List α) : Nat :=
  (xs.map fun a => (f a).tally g).sum

theorem tally_eq (n : Node) :
    n.tally g = n.owned.count g + (n.children.map (tally g)).sum := by
  rw [tally, attached_eq, List.count_append, List.count_flatMap]
  rfl

section Rows

variable {α : Type} {f : α → Node}

@[simp] theorem tallyAll_nil : tallyAll g f [] = 0 := rfl

@[simp] theorem tallyAll_cons (a : α) (as : List α) :
    tallyAll g f (a :: as) = (f a).tally g + tallyAll g f as := by
  rw [tallyAll, List.map_cons, List.sum_cons, tallyAll]

@[simp] theorem tallyAll_append (as bs : List α) :
    tallyAll g f (as ++ bs) = tallyAll g f as + tallyAll g f bs := by
  rw [tallyAll, List.map_append, List.sum_append, tallyAll, tallyAll]

theorem tallyAll_flatten (ass : List (List α)) :
    tallyAll g f ass.flatten = (ass.map (tallyAll g f)).sum := by
  induction ass with
  | nil => rfl
  | cons as ass ih => rw [List.flatten_cons, tallyAll_append, ih, List.map_cons, List.sum_cons]

theorem sum_map_tally (as : List α) : ((as.map f).map (tally g)).sum = tallyAll g f as := by
  rw [List.map_map]
  rfl

@[simp] theorem sum_map_comp_tally (as : List α) :
    (as.map (tally g ∘ f)).sum = tallyAll g f as := rfl

@[simp] theorem sum_slot_tally (x : Option α) :
    ((slot f x).map (tally g)).sum = tallyAll g f x.toList := by
  cases x <;> simp [slot]

@[simp] theorem sum_listOf_tally (role : ListRole) (as : List α) :
    ((listOf role f as).map (tally g)).sum = tallyAll g f as := by
  cases as with
  | nil => rfl
  | cons a as =>
    have h (s : Span) : (list role s ((a :: as).map f)).tally g = tallyAll g f (a :: as) := by
      rw [tally_eq, ← sum_map_tally]
      exact Nat.zero_add _
    rw [listOf, List.map_singleton, List.sum_singleton, h]
    exact List.cons_ne_nil a as

end Rows

@[simp] theorem tally_commentGroup (h : CommentGroup) : (commentGroup h).tally g = 0 := by
  rw [tally, attached_commentGroup, List.count_nil]

@[simp] theorem tallyAll_commentGroup (hs : List CommentGroup) :
    tallyAll g commentGroup hs = 0 := by
  induction hs <;> simp [*]

theorem tally_expr (e : Expr) : (expr e).tally g = ((ofExpr e).map (tally g)).sum := by
  rw [tally_eq]
  exact Nat.zero_add _

theorem tally_stmt (s : Stmt) : (stmt s).tally g = ((ofStmt s).map (tally g)).sum := by
  rw [tally_eq]
  exact Nat.zero_add _

@[simp] theorem tally_ident (id : Ident) : (ident id).tally g = 0 := by rw [tally_expr]; rfl

@[simp] theorem tallyAll_ident (ids : List Ident) : tallyAll g ident ids = 0 := by
  induction ids <;> simp [*]

@[simp] theorem tally_basicLit (lit : BasicLit) : (basicLit lit).tally g = 0 := by
  rw [tally_expr]; rfl

@[simp] theorem tallyAll_basicLit (lits : List BasicLit) : tallyAll g basicLit lits = 0 := by
  induction lits <;> simp [*]

@[simp] theorem tally_badExpr (s : Span) : (expr (.bad s)).tally g = 0 := by rw [tally_expr]; rfl

@[simp] theorem tally_badStmt (s : Span) : (stmt (.bad s)).tally g = 0 := by rw [tally_stmt]; rfl

end Node

namespace Lower

variable {α β : Type} {g : CommentGroup} {E E' : Prop} {held : Nat} {owns : α → Nat}

/-- Of the copies of a group that were held or that the pool had, none is doubled: the result owns
what it took, and the pool has the rest. Under a condition none is lost either. -/
def Conserves (g : CommentGroup) (E : Prop) (held : Nat) (m : Lower α) (owns : α → Nat) : Prop :=
  ∀ pool, owns (m pool).1 + (m pool).2.left g ≤ held + pool.left g ∧
    (E → owns (m pool).1 + (m pool).2.left g = held + pool.left g)

theorem Conserves.weaken {m : Lower α} (h : m.Conserves g E held owns) (hE : E' → E) :
    m.Conserves g E' held owns :=
  fun pool => ⟨(h pool).1, fun e => (h pool).2 (hE e)⟩

theorem Conserves.pure {a : α} (h : owns a = held) : Conserves g E held (pure a) owns :=
  fun _ => ⟨Nat.le_of_eq (congrArg (· + _) h), fun _ => congrArg (· + _) h⟩

/-- A node that is returned owns its doc and line comment and what its children own. -/
theorem Conserves.node {node : α → Node} {a : α}
    (h : (node a).owned.count g + ((node a).children.map (Node.tally g)).sum = held) :
    Conserves g E held (Pure.pure a) fun a => (node a).tally g :=
  .pure ((Node.tally_eq _).trans h)

theorem Conserves.expr {x : Expr} (h : ((Node.ofExpr x).map (Node.tally g)).sum = held) :
    Conserves g E held (Pure.pure x) fun x => (Node.expr x).tally g :=
  .pure ((Node.tally_expr x).trans h)

theorem Conserves.stmt {s : Stmt} (h : ((Node.ofStmt s).map (Node.tally g)).sum = held) :
    Conserves g E held (Pure.pure s) fun s => (Node.stmt s).tally g :=
  .pure ((Node.tally_stmt s).trans h)

/-- What is held may be dropped where the condition fails. -/
theorem Conserves.drop {a : α} (h : owns a ≤ held) (hE : E → owns a = held) :
    Conserves g E held (Pure.pure a) owns :=
  fun _ => ⟨Nat.add_le_add_right h _, fun e => congrArg (· + _) (hE e)⟩

/-- One step after the other. What the first one does not hold is held over it, and what is known
of its result may be used after it. -/
theorem Conserves.seq {m : Lower α} {f : α → Lower β} {owns' : β → Nat} {P : α → Prop} {k : Nat}
    (hm : m.Conserves g E held owns) (hP : m.Yields P)
    (hf : ∀ a, P a → (f a).Conserves g E (k + owns a) owns') :
    Conserves g E (k + held) (m >>= f) owns' := by
  intro pool
  obtain ⟨hle, heq⟩ := hm pool
  obtain ⟨hle', heq'⟩ := hf (m pool).1 (hP pool) (m pool).2
  refine ⟨?_, fun e => ?_⟩
  · exact Nat.le_trans hle' (by omega)
  · exact (heq' e).trans (by have := heq e; omega)

theorem Conserves.bind {m : Lower α} {f : α → Lower β} {owns' : β → Nat}
    (hm : m.Conserves g E 0 owns) (hf : ∀ a, (f a).Conserves g E (held + owns a) owns') :
    Conserves g E held (m >>= f) owns' :=
  hm.seq (Yields.trivial m) fun a _ => hf a

theorem Conserves.map {m : Lower α} {f : α → β} {owns' : β → Nat} (hm : m.Conserves g E held owns)
    (hf : ∀ a, owns' (f a) = owns a) : Conserves g E held (f <$> m) owns' := by
  intro pool
  have := hm pool
  rwa [← hf] at this

theorem Conserves.mapM {f : α → Lower β} {owns' : β → Nat} {xs : List α}
    (h : ∀ x ∈ xs, (f x).Conserves g E 0 owns') :
    (xs.mapM f).Conserves g E 0 fun ys => (ys.map owns').sum := by
  induction xs with
  | nil =>
    rw [List.mapM_nil]
    exact .pure rfl
  | cons x xs ih =>
    rw [List.mapM_cons]
    refine (h x List.mem_cons_self).bind fun y => ?_
    refine (ih fun z hz => h z (List.mem_cons_of_mem x hz)).bind fun ys => .pure ?_
    rw [List.map_cons, List.sum_cons, Nat.zero_add]

/-- Nodes that are lowered one after the other own what each of them owns. -/
theorem Conserves.each {f : α → Lower β} {node : β → Node} {xs : List α}
    (h : ∀ x ∈ xs, (f x).Conserves g E 0 fun b => (node b).tally g) :
    (xs.mapM f).Conserves g E 0 (Node.tallyAll g node) := .mapM h

end Lower

end UniformTree
