import Mathlib.Algebra.Ring.Nat
import UniformTree.Positions
/-!
# Where files begin

While there are enough positions none is handed out twice: each file begins one position after the
last one that the files before it have.
-/

namespace UniformTree

namespace Positions

variable {α : Type} {p : Positions} {xs : List α} {size : α → Nat}

/-- The positions from here on are enough for files of these sizes. -/
def Suffices (p : Positions) (sizes : List Nat) : Prop :=
  p.next.toNat + (sizes.map (· + 1)).sum ≤ limit

instance (p : Positions) (sizes : List Nat) : Decidable (p.Suffices sizes) :=
  inferInstanceAs (Decidable (p.next.toNat + (sizes.map (· + 1)).sum ≤ limit))

theorem next_le_limit (p : Positions) : p.next.toNat ≤ limit :=
  Nat.le_pred_of_lt p.next.toNat_lt_size

theorem toNat_next_add (p : Positions) (n : Nat) :
    (p.add n).2.next.toNat = min limit (p.next.toNat + n + 1) := by
  have hle := p.next_le_limit
  simp only [add, toNat_saturate]
  omega

/-- What is left after the first file is enough for the others. -/
theorem Suffices.tail {n : Nat} {sizes : List Nat} (h : p.Suffices (n :: sizes)) :
    (p.add n).2.next.toNat = p.next.toNat + n + 1 ∧ (p.add n).2.Suffices sizes := by
  rw [Suffices, List.map_cons, List.sum_cons] at h
  have hnext : (p.add n).2.next.toNat = p.next.toNat + n + 1 := by
    rw [toNat_next_add]
    omega
  refine ⟨hnext, ?_⟩
  rw [Suffices, hnext]
  omega

/-- No file begins before the first position or ends after the last one. -/
theorem bounds_of_mem_zip (h : p.Suffices (xs.map size)) {x : α} {b : UInt32}
    (hx : (x, b) ∈ xs.zip (p.bases (xs.map size))) :
    p.next.toNat ≤ b.toNat ∧ b.toNat + size x ≤ limit := by
  induction xs generalizing p with
  | nil => cases hx
  | cons y ys ih =>
    obtain ⟨hnext, htail⟩ := h.tail
    rcases List.mem_cons.1 hx with heq | hx
    · obtain ⟨rfl, rfl⟩ := Prod.mk.inj heq
      rw [Suffices, List.map_cons, List.map_cons, List.sum_cons] at h
      exact ⟨Nat.le_refl _, by simp only [add]; omega⟩
    · obtain ⟨hle, hlimit⟩ := ih htail hx
      exact ⟨by omega, hlimit⟩

/-- Each file begins after the one before it ends, with a position between them. -/
theorem pairwise_zip_bases (h : p.Suffices (xs.map size)) :
    (xs.zip (p.bases (xs.map size))).Pairwise fun a b => a.2.toNat + size a.1 < b.2.toNat := by
  induction xs generalizing p with
  | nil => exact .nil
  | cons y ys ih =>
    obtain ⟨hnext, htail⟩ := h.tail
    refine List.pairwise_cons.2 ⟨?_, ih htail⟩
    intro ⟨x, b⟩ hx
    have hle := (bounds_of_mem_zip htail hx).1
    simp only [add] at hnext hle ⊢
    omega

/-- Three files, the second one empty. -/
example : start.bases [10, 0, 5] = [1, 12, 13] := by decide

end Positions

end UniformTree
