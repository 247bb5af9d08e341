import UniformTree.Lowering.Form
import UniformTree.Proofs.Concrete.Subtrees
/-!
# Reach

A level of a concrete tree becomes a few levels of the uniform tree, with one exception: a union of
types is flat in the concrete tree and leans to the left in the uniform one, one level for each
term. `Concrete.reach` allows for both.
-/

namespace UniformTree

namespace Concrete

/-! ## Reach -/

/-- The node is read as a union of types. -/
def isUnion (n : Concrete) : Bool := ExprForm.ofKind n.kind == .union

mutual

/-- The levels that the unions on the way down to a leaf add where they have more than `w` terms
after the first, for the way on which they add most. -/
def surplus (w : Nat) : Concrete → Nat
  | ⟨kind, field, start, stop, isNamed, isError, isMissing, children⟩ =>
    let n : Concrete := ⟨kind, field, start, stop, isNamed, isError, isMissing, children⟩
    (if n.isUnion then n.parts.length - 1 - w else 0) + surplusAll w children

/-- The most that any of a row of subtrees adds. -/
def surplusAll (w : Nat) : List Concrete → Nat
  | [] => 0
  | c :: cs => max (surplus w c) (surplusAll w cs)

end

/-- How many levels of the uniform tree a subtree may take, with `w` for each of its own. -/
def reach (w : Nat) (n : Concrete) : Nat := w * n.height + n.surplus w

variable {w : Nat} {n c : Concrete}

theorem surplus_eq (w : Nat) (n : Concrete) : n.surplus w =
    (if n.isUnion then n.parts.length - 1 - w else 0) + surplusAll w n.children := by
  cases n; rfl

theorem surplusAll_le {cs : List Concrete} {k : Nat} :
    surplusAll w cs ≤ k ↔ ∀ c ∈ cs, c.surplus w ≤ k := by
  induction cs with
  | nil => simp [surplusAll]
  | cons c cs ih => rw [surplusAll, Nat.max_le, ih, List.forall_mem_cons]

/-- Every union of a subtree has at most a number of terms. -/
def UnionsWithin (terms : Nat) (n : Concrete) : Prop :=
  ∀ c ∈ n.preorder, c.isUnion = true → c.parts.length ≤ terms

theorem unionsWithin_iff {terms : Nat} : n.UnionsWithin terms ↔
    (n.isUnion = true → n.parts.length ≤ terms) ∧ ∀ c ∈ n.children, c.UnionsWithin terms := by
  constructor
  · intro h
    refine ⟨h n n.mem_preorder_self, fun c hc d hd => h d ?_⟩
    exact mem_preorder_of_descendant (mem_descendants.2 ⟨c, hc, hd⟩)
  · rintro ⟨hn, hcs⟩ d hd
    rcases mem_preorder.1 hd with rfl | hd
    · exact hn
    · obtain ⟨c, hc, hdc⟩ := mem_descendants.1 hd
      exact hcs c hc d hdc

/-- Unions of few terms add nothing. -/
theorem surplus_eq_zero (h : n.UnionsWithin (w + 1)) : n.surplus w = 0 := by
  induction n using induction with
  | step n ih =>
    obtain ⟨hn, hc⟩ := unionsWithin_iff.1 h
    have hcs : surplusAll w n.children ≤ 0 :=
      surplusAll_le.2 fun c hm => Nat.le_of_eq (ih c hm (hc c hm))
    rw [surplus_eq]
    split
    · have := hn ‹_›
      omega
    · omega

theorem le_reach (w : Nat) (n : Concrete) : w ≤ n.reach w := by
  have : w * 1 ≤ w * n.height := Nat.mul_le_mul_left w (by rw [height_eq]; omega)
  rw [reach]
  omega

/-- A child has less reach, by `w` or by what its owner takes as a union. -/
theorem reach_child (h : c ∈ n.children) :
    c.reach w + max w (if n.isUnion then n.parts.length - 1 else 0) ≤ n.reach w := by
  have hh : w * (c.height + 1) ≤ w * n.height := Nat.mul_le_mul_left w (height_lt_of_mem h)
  have hs : c.surplus w ≤ surplusAll w n.children := surplusAll_le.1 (Nat.le_refl _) c h
  rw [reach, reach, surplus_eq w n]
  rw [Nat.mul_add_one] at hh
  split <;> omega

theorem reach_preorder (h : c ∈ n.preorder) : c.reach w ≤ n.reach w := by
  induction n using induction with
  | step n ih =>
    rcases mem_preorder.1 h with rfl | h
    · exact Nat.le_refl _
    · obtain ⟨d, hd, hc⟩ := mem_descendants.1 h
      have := ih d hd hc
      have := reach_child (w := w) hd
      omega

theorem reach_descendant (h : c ∈ n.descendants) : c.reach w + w ≤ n.reach w := by
  obtain ⟨d, hd, hc⟩ := mem_descendants.1 h
  have := reach_preorder (w := w) hc
  have := reach_child (w := w) hd
  omega

end Concrete

end UniformTree
