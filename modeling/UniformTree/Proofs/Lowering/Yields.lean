import UniformTree.Lowering.File
import UniformTree.Proofs.Concrete.Subtrees
/-!
# What lowering yields

`Lower.Yields m Q`: whatever comments are left in the pool, the result of `m` satisfies `Q`. A
property of results is carried through a definition in `do` notation step by step (`Yields.bind`),
and through the recursion by `Lowering.upTo_induction`.
-/

namespace UniformTree

namespace Lower

variable {α β : Type} {P : α → Prop} {Q : β → Prop}

/-- The result satisfies a predicate, whatever the pool. -/
def Yields (m : Lower α) (P : α → Prop) : Prop := ∀ pool, P (m pool).1

theorem Yields.pure {a : α} (h : P a) : Yields (pure a) P := fun _ => h

theorem Yields.bind {m : Lower α} {f : α → Lower β} (hm : m.Yields P)
    (hf : ∀ a, P a → (f a).Yields Q) : Yields (m >>= f) Q :=
  fun pool => hf _ (hm pool) (m pool).2

theorem Yields.map {m : Lower α} {f : α → β} (hm : m.Yields P) (hf : ∀ a, P a → Q (f a)) :
    Yields (f <$> m) Q := fun pool => hf _ (hm pool)

theorem Yields.imp {m : Lower α} {P' : α → Prop} (hm : m.Yields P) (h : ∀ a, P a → P' a) :
    m.Yields P' := fun pool => h _ (hm pool)

theorem Yields.and {m : Lower α} {P' : α → Prop} (hm : m.Yields P) (hm' : m.Yields P') :
    m.Yields fun a => P a ∧ P' a := fun pool => ⟨hm pool, hm' pool⟩

theorem Yields.trivial (m : Lower α) : m.Yields fun _ => True := fun _ => True.intro

/-- One result for each element, and all of them satisfy the predicate. -/
theorem Yields.mapM {f : α → Lower β} {xs : List α} (h : ∀ x ∈ xs, (f x).Yields Q) :
    Yields (xs.mapM f) fun ys => ys.length = xs.length ∧ ∀ y ∈ ys, Q y := by
  induction xs with
  | nil =>
    rw [List.mapM_nil]
    exact .pure ⟨rfl, by simp⟩
  | cons x xs ih =>
    rw [List.mapM_cons]
    refine (h x List.mem_cons_self).bind fun y hy => ?_
    refine (ih fun z hz => h z (List.mem_cons_of_mem x hz)).bind fun ys hys => .pure ?_
    exact ⟨congrArg (· + 1) hys.1, List.forall_mem_cons.2 ⟨hy, hys.2⟩⟩

/-- What holds of the result for one element holds of one of the results. -/
theorem Yields.exists_mapM {f : α → Lower β} {xs : List α} {x : α} (hx : x ∈ xs)
    (h : (f x).Yields Q) : (xs.mapM f).Yields fun ys => ∃ y ∈ ys, Q y := by
  induction xs with
  | nil => cases hx
  | cons z zs ih =>
    rw [List.mapM_cons]
    rcases List.mem_cons.1 hx with rfl | hx
    · refine h.bind fun y hy => (Yields.trivial _).bind fun ys _ => .pure ?_
      exact ⟨y, List.mem_cons_self, hy⟩
    · refine (Yields.trivial _).bind fun y _ => (ih hx).bind fun ys hys => .pure ?_
      obtain ⟨y', hy', hq⟩ := hys
      exact ⟨y', List.mem_cons_of_mem y hy', hq⟩

end Lower

namespace Lowering

open Concrete Lower

variable {src : Placed} {below : Below}

/-! ## The parts that are lowered below -/

section Parts

variable {P : Expr → Prop} {Q : Stmt → Prop} {n : Concrete} {f : String}

/-- What may stand in a field satisfies what is lowered from the child that fills it. -/
theorem yields_filled {α : Type} {R : Concrete → α → Prop} {lower : Concrete → Lower α}
    (h : ∀ c ∈ n.children, (lower c).Yields (R c)) :
    Yields
      (match n.child? f with
        | some c => some <$> lower c
        | none => pure none) fun x => ∀ a ∈ x, ∃ c ∈ n.child? f, R c a := by
  cases hc : n.child? f with
  | some c =>
    exact (h c (mem_children_of_child? hc)).map fun a ha _ hx => by cases hx; exact ⟨c, rfl, ha⟩
  | none => exact .pure (by simp)

/-- What may stand in a field satisfies what every child does. -/
theorem yields_optional {α : Type} {R : α → Prop} {lower : Concrete → Lower α}
    (h : ∀ c ∈ n.children, (lower c).Yields R) :
    Yields
      (match n.child? f with
        | some c => some <$> lower c
        | none => pure none) fun x => ∀ a ∈ x, R a := by
  refine (yields_filled (R := fun _ => R) h).imp ?_
  intro x hx a ha
  obtain ⟨_, _, hR⟩ := hx a ha
  exact hR

theorem yields_exprOf {c : Option Concrete} (h : ∀ d ∈ c, (below.expr d).Yields P)
    (hbad : P (.bad (src.span n))) : (exprOf src below n c).Yields P := by
  cases c with
  | none => exact .pure hbad
  | some c => exact h c rfl

theorem yields_exprIn (h : ∀ c ∈ n.children, (below.expr c).Yields P)
    (hbad : P (.bad (src.span n))) : (exprIn src below n f).Yields P :=
  yields_exprOf (fun _ hc => h _ (mem_children_of_child? hc)) hbad

theorem yields_firstExpr (h : ∀ c ∈ n.children, (below.expr c).Yields P)
    (hbad : P (.bad (src.span n))) : (firstExpr src below n).Yields P :=
  yields_exprOf (fun _ hc => h _ (mem_children_of_part (List.mem_of_mem_head? hc))) hbad

theorem yields_exprIn? (h : ∀ c ∈ n.children, (below.expr c).Yields P) :
    (exprIn? below n f).Yields fun x => ∀ e ∈ x, P e := yields_optional h

theorem yields_exprEach {ns : List Concrete} (h : ∀ c ∈ ns, (below.expr c).Yields P) :
    (exprEach below ns).Yields fun es => es.length = ns.length ∧ ∀ e ∈ es, P e :=
  .mapM h

/-- The expressions of a list of them lie below the list; any other node is one itself. -/
theorem yields_exprs (h : ∀ c ∈ n.preorder, (below.expr c).Yields P) :
    (exprs below n).Yields fun es =>
      es.length = (if n.kind == "expression_list" then n.parts.length else 1) ∧ ∀ e ∈ es, P e := by
  unfold exprs
  split
  · refine yields_exprEach fun c hc => h c ?_
    exact mem_preorder_of_child (mem_children_of_part hc)
  · exact (h n n.mem_preorder_self).bind fun e he => .pure ⟨rfl, by simpa using he⟩

theorem yields_exprsIn (h : ∀ c ∈ n.descendants, (below.expr c).Yields P) :
    (exprsIn below n f).Yields fun es => ∀ e ∈ es, P e := by
  unfold exprsIn
  split
  · rename_i c hc
    refine (yields_exprs fun d hd => h d ?_).imp fun _ hes => hes.2
    exact mem_descendants.2 ⟨c, mem_children_of_child? hc, hd⟩
  · exact .pure (by simp)

theorem yields_stmtIn? (h : ∀ c ∈ n.children, (below.stmt c).Yields Q) :
    (stmtIn? below n f).Yields fun x => ∀ s ∈ x, Q s := yields_optional h

theorem yields_stmtEach {ns : List Concrete} (h : ∀ c ∈ ns, (below.stmt c).Yields Q) :
    (stmtEach below ns).Yields fun ss => ∀ s ∈ ss, Q s :=
  (Yields.mapM h).imp fun _ hss => hss.2

/-- The statements of a row of nodes lie in the subtrees of the row. -/
theorem yields_flattened {ns : List Concrete} (h : ∀ c ∈ preorderAll ns, (below.stmt c).Yields Q) :
    (stmtEach below (flattened ns)).Yields fun ss => ∀ s ∈ ss, Q s :=
  yields_stmtEach fun c hc => h c (mem_preorderAll.2 (mem_preorder_of_flattened hc))

end Parts

/-! ## The guard of a type switch -/

/-- Where the guard of a type switch ends. -/
def guardStop (src : Placed) (n : Concrete) (value : Expr) : UInt32 :=
  match guardClose? n with
  | some c => src.pos c.stop
  | none => value.span.stop

/-- The guard is an assertion, or the assignment of one, and both end in the same place. -/
theorem guard_eq (n : Concrete) (value : Expr) : guard src below n value =
    match n.child? "alias" with
    | some c => do
      let lhs ← exprs below c
      return .assign ⟨src.pos c.start, guardStop src n value⟩ lhs ":="
        [.typeAssert ⟨value.span.start, guardStop src n value⟩ value none]
    | none =>
      return .expr ⟨value.span.start, guardStop src n value⟩
        (.typeAssert ⟨value.span.start, guardStop src n value⟩ value none) := rfl

/-- The parenthesis after the word `type` is a child. -/
theorem mem_children_of_guardClose? {n c : Concrete} (h : guardClose? n = some c) :
    c ∈ n.children := (List.dropWhile_sublist _).subset (List.mem_of_find?_eq_some h)

/-! ## Declarations among statements -/

/-- What is a declaration among statements is a general one, and no import. -/
theorem declForm_of_stmtForm {kind : String} {tok : DeclToken}
    (h : StmtForm.ofKind kind = .declaration tok) :
    DeclForm.ofKind kind = .gen tok ∧ tok ≠ .importing := by
  unfold StmtForm.ofKind at h
  split at h <;> cases h <;> exact ⟨rfl, DeclToken.noConfusion⟩

/-! ## The recursion -/

/-- What holds of `upTo` at level zero, and one level up from where it holds, holds of it. -/
theorem upTo_induction {P : Below → Prop} (zero : P (upTo src 0))
    (step : ∀ below, P below → P ⟨expr src below, stmt src below⟩) (levels : Nat) :
    P (upTo src levels) := by
  induction levels with
  | zero => exact zero
  | succ levels ih => exact step _ ih

/-! ## Files -/

/-- A file is lowered by way of its package clause and the name in it. -/
theorem exists_fileAt {root : Concrete} {f : File} (h : file src root = .ok f) :
    ∃ clause ∈ root.parts, ∃ name ∈ clause.parts,
      (fileAt src root clause name (CommentPool.ofTree src root)).1 = f := by
  unfold file at h
  split at h
  · cases h
  · rename_i clause hclause
    split at h
    · cases h
    · rename_i name hname
      cases h
      exact ⟨clause, List.mem_of_find?_eq_some hclause, name, List.mem_of_mem_head? hname, rfl⟩

end Lowering

end UniformTree
