import UniformTree.Proofs.Comment.Pool
/-!
# Searching a part of the pool is scanning all of it

The pool is searched between two places that are found first: one by halving, the other by walking
away from it. If no free group outside fits, and inside the two searches agree on what fits, then
the group that is taken is the first of the whole pool that is free and fits
(`CommentPool.takeIn_eq_scan`).
-/

namespace UniformTree

/-! ## Halving -/

section PartitionPoint

variable {α : Type} {p : α → Bool} {xs : Array α} {x y : α} {i j lo hi : Nat}

/-- All that satisfies a predicate stands before all that does not. -/
def Divides (p : α → Bool) (xs : Array α) : Prop :=
  xs.toList.Pairwise fun x y => p y = true → p x = true

theorem Divides.of_le (h : Divides p xs) (hx : xs[i]? = some x) (hy : xs[j]? = some y)
    (hij : i ≤ j) (hp : p y = true) : p x = true := by
  rcases Nat.eq_or_lt_of_le hij with rfl | hlt
  · rwa [Option.some.inj (hx.symm.trans hy)]
  · obtain ⟨hi, rfl⟩ := Array.getElem?_eq_some_iff.1 hx
    obtain ⟨hj, rfl⟩ := Array.getElem?_eq_some_iff.1 hy
    exact List.pairwise_iff_getElem.1 h i j hi hj hlt hp

/-- While the predicate holds before the lower place and fails from the upper one on, halving comes
to the place where it begins to fail. -/
theorem lt_partitionPointIn_iff (h : Divides p xs) (hle : lo ≤ hi)
    (hbelow : ∀ {i x}, xs[i]? = some x → i < lo → p x = true)
    (habove : ∀ {i x}, xs[i]? = some x → hi ≤ i → p x = false) (hx : xs[i]? = some x) :
    i < partitionPointIn p xs lo hi ↔ p x = true := by
  fun_induction partitionPointIn p xs lo hi with
  | case1 lo hi hlt mid y hy hp ih =>
    apply ih
    · omega
    · intro j z hz hj
      exact h.of_le hz hy (by omega) hp
    · exact habove
  | case2 lo hi hlt mid y hy hp ih =>
    apply ih
    · omega
    · exact hbelow
    · intro j z hz hj
      rw [Bool.eq_false_iff]
      intro hpz
      exact hp (h.of_le hy hz hj hpz)
  | case3 lo hi hlt mid hnone ih =>
    apply ih
    · omega
    · exact hbelow
    · intro j z hz hj
      rw [Array.getElem?_eq_none_iff] at hnone
      obtain ⟨hsize, -⟩ := Array.getElem?_eq_some_iff.1 hz
      omega
  | case4 lo hi hge =>
    constructor
    · exact hbelow hx
    · intro hp
      apply Nat.lt_of_not_le
      intro hge'
      rw [habove hx (by omega)] at hp
      cases hp

/-- The partition point is the place where the predicate begins to fail. -/
theorem lt_partitionPoint_iff (h : Divides p xs) (hx : xs[i]? = some x) :
    i < partitionPoint p xs ↔ p x = true := by
  unfold partitionPoint
  apply lt_partitionPointIn_iff h (Nat.zero_le _) _ _ hx
  · intro j z hz hj
    exact absurd hj (Nat.not_lt_zero j)
  · intro j z hz hj
    obtain ⟨hsize, -⟩ := Array.getElem?_eq_some_iff.1 hz
    omega

theorem partitionPointIn_le (hle : lo ≤ hi) : partitionPointIn p xs lo hi ≤ hi := by
  fun_induction partitionPointIn p xs lo hi with
  | case1 lo hi hlt mid y hy hp ih => exact ih (by omega)
  | case2 lo hi hlt mid y hy hp ih => exact Nat.le_trans (ih (by omega)) (by omega)
  | case3 lo hi hlt mid hnone ih => exact Nat.le_trans (ih (by omega)) (by omega)
  | case4 lo hi hge => exact hle

theorem partitionPoint_le (p : α → Bool) (xs : Array α) : partitionPoint p xs ≤ xs.size :=
  partitionPointIn_le (Nat.zero_le _)

end PartitionPoint

/-! ## Walking -/

section TakeWhile

variable {α : Type} {p : α → Bool} {xs : List α} {i : Nat}

/-- A walk goes past a place up to which the predicate holds. -/
theorem lt_length_takeWhile (hi : i < xs.length)
    (h : ∀ {j x}, xs[j]? = some x → j ≤ i → p x = true) : i < (xs.takeWhile p).length := by
  have hfront : ∀ x ∈ xs.take (i + 1), p x = true := by
    intro x hx
    obtain ⟨j, hj⟩ := List.getElem?_of_mem hx
    rw [List.getElem?_take] at hj
    split at hj
    · exact h hj (by omega)
    · cases hj
  rw [← List.take_append_drop (i + 1) xs, List.takeWhile_append_of_pos hfront, List.length_append,
    List.length_take]
  omega

/-- What a walk has passed satisfies the predicate. -/
theorem of_lt_length_takeWhile {x : α} (hx : xs[i]? = some x) (hi : i < (xs.takeWhile p).length) :
    p x = true := by
  obtain ⟨rest, hrest⟩ := List.takeWhile_prefix (l := xs) p
  rw [← hrest, List.getElem?_append_left hi] at hx
  exact List.all_eq_true.1 List.all_takeWhile x (List.mem_of_getElem? hx)

/-- A walk from the end goes back to a place from which on the predicate holds. -/
theorem length_sub_takeWhile_le (h : ∀ {j x}, xs[j]? = some x → i ≤ j → p x = true) :
    xs.length - (xs.reverse.takeWhile p).length ≤ i := by
  have hback : ∀ x ∈ (xs.drop i).reverse, p x = true := by
    intro x hx
    obtain ⟨j, hj⟩ := List.getElem?_of_mem (List.mem_reverse.1 hx)
    rw [List.getElem?_drop] at hj
    exact h hj (Nat.le_add_right i j)
  have hsplit : xs.reverse = (xs.drop i).reverse ++ (xs.take i).reverse := by
    rw [← List.reverse_append, List.take_append_drop]
  rw [hsplit, List.takeWhile_append_of_pos hback, List.length_append, List.length_reverse,
    List.length_drop]
  omega

end TakeWhile

/-! ## Scanning -/

namespace CommentPool

variable {fits fits' : Slot → Bool} {slots : List Slot} {lo hi : Nat}

/-- The first group of a row that is free and fits, and the row with its owner known. -/
def scan (fits : Slot → Bool) : List Slot → Option CommentGroup × List Slot
  | [] => (none, [])
  | s :: slots =>
    if !s.taken && fits s then (some s.group, marked s :: slots)
    else ((scan fits slots).1, s :: (scan fits slots).2)

/-- The pool after a scan of all of its groups, and what the scan has found. -/
def scanAll (fits : Slot → Bool) (pool : CommentPool) : Option CommentGroup × CommentPool :=
  ((scan fits pool.slots.toList).1, ⟨(scan fits pool.slots.toList).2.toArray⟩)

theorem scan_eq (fits : Slot → Bool) (slots : List Slot) :
    scan fits slots = match slots.findIdx? fun s => !s.taken && fits s with
      | some i => (slots[i]?.map (·.group), slots.modify i marked)
      | none => (none, slots) := by
  induction slots with
  | nil => rfl
  | cons s slots ih =>
    rw [scan, List.findIdx?_cons]
    by_cases hs : (!s.taken && fits s) = true
    · rw [if_pos hs, if_pos hs]
      rfl
    · rw [if_neg hs, if_neg hs, ih]
      cases slots.findIdx? fun s => !s.taken && fits s with
      | none => rfl
      | some i => rfl

/-- A search between two places finds the first of all groups that is free and fits, if such groups
are only there and fit there by both measures. -/
theorem firstFree?_eq {slots : Array Slot}
    (hwindow : ∀ {i s}, slots[i]? = some s → fits' s = true → lo ≤ i ∧ i < hi)
    (hagree : ∀ {i s}, slots[i]? = some s → lo ≤ i → i < hi → fits s = fits' s) :
    firstFree? slots fits lo hi = slots.toList.findIdx? fun s => !s.taken && fits' s := by
  unfold firstFree?
  cases hfound : slots.toList.findIdx? fun s => !s.taken && fits' s with
  | none =>
    rw [List.findIdx?_eq_none_iff] at hfound
    rw [List.find?_eq_none]
    intro i hi
    rw [List.mem_range'_1] at hi
    cases hs : slots[i]? with
    | none => simp
    | some s =>
      have hnot := hfound s (Array.mem_toList_iff.2 (Array.mem_of_getElem? hs))
      simp only [hagree hs hi.1 (by omega), hnot]
      simp
  | some i =>
    obtain ⟨hsize, hfits, hfirst⟩ := List.findIdx?_eq_some_iff_getElem.1 hfound
    have hs : slots[i]? = some slots.toList[i] := by
      rw [← Array.getElem?_toList, List.getElem?_eq_getElem hsize]
    have hwithin := hwindow hs (Bool.and_eq_true_iff.1 hfits).2
    rw [List.find?_range'_eq_some]
    refine ⟨?_, List.mem_range'_1.2 (by omega), ?_⟩
    · simp only [hs, hagree hs hwithin.1 hwithin.2]
      exact hfits
    · intro j hlo hji
      have ht : slots[j]? = some slots.toList[j] := by
        rw [← Array.getElem?_toList, List.getElem?_eq_getElem (Nat.lt_trans hji hsize)]
      simp only [ht, hagree ht hlo (Nat.lt_trans hji hwithin.2)]
      rw [Bool.not_eq_true', Bool.eq_false_iff]
      exact hfirst j hji

theorem takeIn_eq_scan {pool : CommentPool}
    (hwindow : ∀ {i s}, pool.slots[i]? = some s → fits' s = true → lo ≤ i ∧ i < hi)
    (hagree : ∀ {i s}, pool.slots[i]? = some s → lo ≤ i → i < hi → fits s = fits' s) :
    pool.takeIn fits lo hi = pool.scanAll fits' := by
  rw [scanAll, scan_eq, takeIn, firstFree?_eq hwindow hagree]
  cases pool.slots.toList.findIdx? fun s => !s.taken && fits' s with
  | none => rfl
  | some i =>
    have hslots : (pool.slots.toList.modify i marked).toArray = pool.slots.modify i marked := by
      rw [← Array.toList_modify]
    have hgroup : pool.slots[i]?.map (·.group) = pool.slots.toList[i]?.map (·.group) := by
      rw [Array.getElem?_toList]
    exact Prod.ext hgroup (congrArg CommentPool.mk hslots.symm)

end CommentPool

end UniformTree
