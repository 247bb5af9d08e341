/-!
# Positions

Files that are read together lie one after the other on one line of positions, with one position
free after each. Where 32 bits are not enough the last position is handed out again and again.
-/

namespace UniformTree

/-- Where the next file begins. -/
structure Positions where
  next : UInt32
deriving DecidableEq, Repr

namespace Positions

/-- The last position there is. -/
def limit : Nat := UInt32.size - 1

/-- A number that stays at the last position when it is greater. -/
def saturate (n : Nat) : UInt32 := UInt32.ofNat (min limit n)

/-- Nothing is taken yet but the position zero, which is no position. -/
def start : Positions := ⟨1⟩

/-- Take as many positions as a file has bytes, and one more. The first result is where the file
begins. -/
def add (p : Positions) (size : Nat) : UInt32 × Positions :=
  (p.next, ⟨saturate ((saturate (p.next.toNat + (saturate size).toNat)).toNat + 1)⟩)

/-- Where files of these sizes begin, one after the other. -/
def bases (p : Positions) : List Nat → List UInt32
  | [] => []
  | size :: sizes => (p.add size).1 :: (p.add size).2.bases sizes

theorem toNat_saturate (n : Nat) : (saturate n).toNat = min limit n := by
  have h : min limit n < UInt32.size :=
    Nat.lt_of_le_of_lt (Nat.min_le_left _ _) (by decide)
  exact UInt32.toNat_ofNat_of_lt' h

theorem length_bases (p : Positions) (sizes : List Nat) :
    (p.bases sizes).length = sizes.length := by
  induction sizes generalizing p with
  | nil => rfl
  | cons s ss ih => simp [bases, ih]

end Positions

end UniformTree
