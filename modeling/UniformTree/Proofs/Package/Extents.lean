import Mathlib.Order.Interval.Finset.Nat
import UniformTree.Proofs.Package.Bases
import UniformTree.Proofs.Positions
/-!
# Where positions run out

A file of some size takes one position for each of its bytes and one more for its end. The base of a
file is the number of positions taken before it, counted without a bound and then cut off at the
last position there is (`toNat_next_after`). So no position belongs to two files exactly as long as
the files take no more positions than there are (`disjoint_extents_iff`).
-/

namespace UniformTree

namespace Positions

variable {p : Positions} {sizes : List Nat} {i j : Nat}

/-! ## Positions that are taken -/

/-- How many positions files of these sizes take. -/
def taken (sizes : List Nat) : Nat := (sizes.map (· + 1)).sum

@[simp] theorem taken_nil : taken [] = 0 := rfl

@[simp] theorem taken_cons (size : Nat) (sizes : List Nat) :
    taken (size :: sizes) = size + 1 + taken sizes := by
  simp [taken]

theorem taken_append (xs ys : List Nat) : taken (xs ++ ys) = taken xs + taken ys := by
  simp [taken]

theorem taken_take_succ (h : i < sizes.length) :
    taken (sizes.take (i + 1)) = taken (sizes.take i) + (sizes[i] + 1) := by
  rw [List.take_succ_eq_append_getElem h, taken_append, taken_cons, taken_nil, Nat.add_zero]

theorem taken_take_mono (sizes : List Nat) (h : i ≤ j) :
    taken (sizes.take i) ≤ taken (sizes.take j) := by
  have hsplit : sizes.take j = sizes.take i ++ (sizes.drop i).take (j - i) := by
    rw [← List.take_add, Nat.add_sub_cancel' h]
  rw [hsplit, taken_append]
  omega

theorem taken_take_lt (h : i < sizes.length) :
    taken (sizes.take i) + sizes[i] < taken sizes := by
  have hmono : taken (sizes.take (i + 1)) ≤ taken (sizes.take sizes.length) :=
    taken_take_mono sizes h
  rw [taken_take_succ h, List.take_length] at hmono
  omega

/-! ## Bases -/

/-- The positions after files of these sizes. -/
def after (p : Positions) (sizes : List Nat) : Positions :=
  sizes.foldl (fun p size => (p.add size).2) p

/-- The two cuts of one addition and the cut of the size are together one cut of the sum. -/
theorem toNat_next_after (p : Positions) (sizes : List Nat) :
    (p.after sizes).next.toNat = min limit (p.next.toNat + taken sizes) := by
  induction sizes generalizing p with
  | nil =>
    have hle := p.next_le_limit
    rw [taken_nil]
    show p.next.toNat = _
    omega
  | cons size sizes ih =>
    have hstep := p.toNat_next_add size
    have hrun := ih (p.add size).2
    rw [taken_cons]
    show ((p.add size).2.after sizes).next.toNat = _
    omega

theorem getElem_bases (h : i < (p.bases sizes).length) :
    (p.bases sizes)[i] = (p.after (sizes.take i)).next := by
  induction sizes generalizing p i with
  | nil => exact absurd h (Nat.not_lt_zero i)
  | cons size sizes ih =>
    cases i with
    | zero => rfl
    | succ i => exact ih (Nat.lt_of_succ_lt_succ h)

/-- The base of a file that is added after others. -/
theorem toNat_getElem_bases (h : i < (start.bases sizes).length) :
    (start.bases sizes)[i].toNat = min limit (1 + taken (sizes.take i)) := by
  rw [getElem_bases, toNat_next_after]
  rfl

/-! ## Extents -/

/-- The positions of a file at a base: one for each byte, and the one where it ends. -/
def extent (base : UInt32) (size : Nat) : Finset Nat :=
  Finset.Icc base.toNat (base.toNat + size)

/-- The positions of each of the files of these sizes. -/
def extents (p : Positions) (sizes : List Nat) : List (Finset Nat) :=
  List.zipWith extent (p.bases sizes) sizes

/-- All positions of a file come before all of another one. -/
def Ascend (a b : Finset Nat) : Prop := ∀ x ∈ a, ∀ y ∈ b, x < y

theorem Ascend.disjoint {a b : Finset Nat} (h : Ascend a b) : Disjoint a b :=
  Finset.disjoint_left.2 fun x ha hb => Nat.lt_irrefl x (h x ha x hb)

theorem extents_cons (p : Positions) (size : Nat) (sizes : List Nat) :
    p.extents (size :: sizes) = extent p.next size :: (p.add size).2.extents sizes := rfl

theorem length_extents (p : Positions) (sizes : List Nat) :
    (p.extents sizes).length = sizes.length := by
  rw [extents, List.length_zipWith, length_bases, Nat.min_self]

theorem getElem_extents (h : i < (start.extents sizes).length) (hs : i < sizes.length) :
    (start.extents sizes)[i] =
      Finset.Icc (min limit (1 + taken (sizes.take i)))
        (min limit (1 + taken (sizes.take i)) + sizes[i]) := by
  have hb : i < (start.bases sizes).length := by rwa [length_bases]
  simp only [extents, List.getElem_zipWith, extent, toNat_getElem_bases hb]

/-- As long as no file ends after the last position, each one begins after the one before it. -/
theorem ascend_extents (h : taken sizes ≤ limit) :
    (start.extents sizes).Pairwise Ascend ∧ ∀ e ∈ start.extents sizes, ∀ x ∈ e, x ≤ limit := by
  constructor
  · refine List.pairwise_iff_getElem.2 fun i j hi hj hij x hx y hy => ?_
    have hlen := length_extents start sizes
    have hi' : i < sizes.length := by omega
    have hj' : j < sizes.length := by omega
    rw [getElem_extents hi hi', Finset.mem_Icc] at hx
    rw [getElem_extents hj hj', Finset.mem_Icc] at hy
    have hnext := taken_take_succ hi'
    have hmono := taken_take_mono sizes (show i + 1 ≤ j from hij)
    have hlast := taken_take_lt hj'
    omega
  · intro e he x hx
    obtain ⟨i, hi, rfl⟩ := List.getElem_of_mem he
    have hi' : i < sizes.length := by rwa [length_extents] at hi
    rw [getElem_extents hi hi', Finset.mem_Icc] at hx
    have hlast := taken_take_lt hi'
    omega

/-- If no two files have a position in common and none ends after the last position, then the base
of no file was cut off. -/
theorem taken_le_of_disjoint (hdisjoint : (p.extents sizes).Pairwise Disjoint)
    (hfit : ∀ e ∈ p.extents sizes, ∀ x ∈ e, x ≤ limit) :
    sizes = [] ∨ p.next.toNat + taken sizes ≤ limit + 1 := by
  induction sizes generalizing p with
  | nil => exact .inl rfl
  | cons size sizes ih =>
    rw [extents_cons] at hdisjoint hfit
    obtain ⟨hapart, hdisjoint⟩ := List.pairwise_cons.1 hdisjoint
    have hend : p.next.toNat + size ≤ limit :=
      hfit _ List.mem_cons_self _ (Finset.right_mem_Icc.2 (Nat.le_add_right _ _))
    have hstep := p.toNat_next_add size
    right
    rw [taken_cons]
    rcases ih hdisjoint fun e he => hfit e (List.mem_cons_of_mem _ he) with rfl | hrest
    · rw [taken_nil]
      omega
    · cases sizes with
      | nil =>
        rw [taken_nil]
        omega
      | cons next sizes =>
        -- the base of the next file is no position of this one, so it was not cut off
        have hbase : (p.add size).2.next.toNat ∉ extent p.next size := by
          refine Finset.disjoint_right.1 (hapart _ List.mem_cons_self) ?_
          exact Finset.left_mem_Icc.2 (Nat.le_add_right _ _)
        rw [extent, Finset.mem_Icc] at hbase
        omega

/-- No position belongs to two files, and none lies after the last one, exactly as long as the
files take no more positions than there are. -/
theorem disjoint_extents_iff (sizes : List Nat) :
    ((start.extents sizes).Pairwise Disjoint ∧ ∀ e ∈ start.extents sizes, ∀ x ∈ e, x ≤ limit) ↔
      taken sizes ≤ limit := by
  constructor
  · rintro ⟨hdisjoint, hfit⟩
    rcases taken_le_of_disjoint hdisjoint hfit with rfl | hle
    · exact Nat.zero_le limit
    · have hone : start.next.toNat = 1 := rfl
      omega
  · intro h
    obtain ⟨hascend, hfit⟩ := ascend_extents h
    exact ⟨hascend.imp Ascend.disjoint, hfit⟩

/-! ## Files added one after the other -/

/-- Once more positions would be taken than there are, every file begins at the last one. -/
theorem getElem_bases_of_limit_lt (h : limit < 1 + taken (sizes.take i)) (hij : i ≤ j)
    (hj : j < (start.bases sizes).length) : (start.bases sizes)[j] = UInt32.ofNat limit := by
  have hmono := taken_take_mono sizes hij
  apply UInt32.toNat.inj
  rw [toNat_getElem_bases hj]
  show _ = limit
  omega

/-- Files of any sizes, the positions counted without a bound: the base of a file is one more than
the positions taken before it, or the last position if that is less, and so it is for a file that
might still be added. Hence as long as the positions are enough, the ranges of the files ascend, no
two of them meet, none goes beyond the last position, and every byte of a source has its position at
exactly its distance from the base; without more positions than the files take this is not so. As
soon as the positions are used up, all later files begin at the last one, and none of their other
bytes has a position. -/
theorem bases_saturated (sizes : List Nat) :
    (start.bases sizes).length = sizes.length ∧
    (∀ (i : Nat) (base : UInt32), (start.bases sizes)[i]? = some base →
      base.toNat = min limit (1 + taken (sizes.take i))) ∧
    (start.after sizes).next.toNat = min limit (1 + taken sizes) ∧
    (1 + taken sizes ≤ limit →
      (start.extents sizes).Pairwise Ascend ∧ (start.extents sizes).Pairwise Disjoint ∧
      (∀ e ∈ start.extents sizes, ∀ x ∈ e, x ≤ limit) ∧
      ∀ (i size : Nat) (src : Placed), sizes[i]? = some size →
        (start.bases sizes)[i]? = some src.base →
        ∀ byte ≤ size, (src.pos byte).toNat = src.base.toNat + byte) ∧
    ((start.extents sizes).Pairwise Disjoint ∧ (∀ e ∈ start.extents sizes, ∀ x ∈ e, x ≤ limit) ↔
      taken sizes ≤ limit) ∧
    ∀ i, limit < 1 + taken (sizes.take i) →
      ∀ j base, i ≤ j → (start.bases sizes)[j]? = some base →
        base = UInt32.ofNat limit ∧ ∀ k, 1 ≤ k → limit < base.toNat + k := by
  refine ⟨length_bases start sizes, ?_, toNat_next_after start sizes, ?_,
    disjoint_extents_iff sizes, ?_⟩
  · intro i base hbase
    obtain ⟨hi, rfl⟩ := List.getElem?_eq_some_iff.1 hbase
    exact toNat_getElem_bases hi
  · intro h
    have htaken : taken sizes ≤ limit := Nat.le_of_add_left_le h
    obtain ⟨hdisjoint, hfit⟩ := (disjoint_extents_iff sizes).2 htaken
    refine ⟨(ascend_extents htaken).1, hdisjoint, hfit, ?_⟩
    intro i size src hsize hbase byte hbyte
    obtain ⟨hi, rfl⟩ := List.getElem?_eq_some_iff.1 hsize
    obtain ⟨hb, heq⟩ := List.getElem?_eq_some_iff.1 hbase
    have hat := toNat_getElem_bases hb
    have hlast := taken_take_lt hi
    apply Placed.toNat_pos
    rw [← heq]
    omega
  · intro i h j base hij hbase
    obtain ⟨hj, rfl⟩ := List.getElem?_eq_some_iff.1 hbase
    rw [getElem_bases_of_limit_lt h hij hj]
    refine ⟨rfl, fun k hk => ?_⟩
    show limit < limit + k
    omega

/-- Three files that fit, the second one empty; and four files of which the first two take all
positions up to the last one, so that the last of them has no position but where it begins. -/
theorem bases_fullRow :
    1 + taken [10, 0, 5] ≤ limit ∧ (start.extents [10, 0, 5]).Pairwise Disjoint ∧
    (start.after [10, 0, 5]).next.toNat = 19 ∧
    limit < 1 + taken ([4294967284, 9, 7, 3].take 2) ∧
    (start.bases [4294967284, 9, 7, 3])[3]? = some 4294967295 ∧
    ∀ k, 1 ≤ k → limit < (4294967295 : UInt32).toNat + k := by
  obtain ⟨-, -, hafter, hfits, -, -⟩ := bases_saturated [10, 0, 5]
  obtain ⟨-, -, -, -, -, hfull⟩ := bases_saturated [4294967284, 9, 7, 3]
  have hsmall : 1 + taken [10, 0, 5] ≤ limit := by decide
  have hlarge : limit < 1 + taken ([4294967284, 9, 7, 3].take 2) := by decide
  have hlast : (start.bases [4294967284, 9, 7, 3])[3]? = some 4294967295 := by decide
  refine ⟨hsmall, (hfits hsmall).2.1, hafter, hlarge, hlast, ?_⟩
  exact (hfull 2 hlarge 3 _ (by decide) hlast).2

end Positions

end UniformTree
