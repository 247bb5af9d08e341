/-!
# Lists by name

Entries of a list that are looked up under their names. Where the names ascend, each entry is the
one that is found under its name.
-/

namespace UniformTree

variable {α : Type} {a : α} {x : String × α} {xs : List (String × α)} {k name : String}

/-- Each name is greater than the one before it. -/
def Ascending (xs : List (String × α)) : Prop := xs.Pairwise fun x y => x.1 < y.1

theorem lookup_cons_self (k : String) (a : α) (xs : List (String × α)) :
    ((k, a) :: xs).lookup k = some a := by
  rw [List.lookup_cons, beq_self_eq_true]

theorem lookup_cons_ne (h : k ≠ name) (a : α) (xs : List (String × α)) :
    ((name, a) :: xs).lookup k = xs.lookup k := by
  rw [List.lookup_cons, beq_false_of_ne h]

/-- Nothing is found under a name before the first one. -/
theorem lookup_of_lt (h : Ascending (x :: xs)) (hk : k < x.1) : (x :: xs).lookup k = none := by
  rw [List.lookup_eq_none_iff]
  intro y hy
  have hlt : k < y.1 := by
    rcases List.mem_cons.1 hy with rfl | hy
    · exact hk
    · exact String.lt_trans hk ((List.pairwise_cons.1 h).1 y hy)
  exact bne_iff_ne.2 (Std.ne_of_lt hlt)

theorem lookup_of_not_mem (h : k ∉ xs.map (·.1)) : xs.lookup k = none := by
  rw [List.lookup_eq_none_iff]
  intro y hy
  exact bne_iff_ne.2 fun hk => h (hk ▸ List.mem_map_of_mem hy)

/-- Without the entries of one name the others are found as before. -/
theorem lookup_filter_ne (h : k ≠ name) (xs : List (String × α)) :
    (xs.filter (·.1 != name)).lookup k = xs.lookup k := by
  induction xs with
  | nil => rfl
  | cons x xs ih =>
    by_cases hx : x.1 = name
    · rw [List.filter_cons_of_neg (by simp [hx]), ih, lookup_cons_ne (hx ▸ h)]
    · rw [List.filter_cons_of_pos (by simp [hx]), List.lookup_cons, List.lookup_cons, ih]

/-- In ascending order each entry is the one that is found under its name. -/
theorem lookup_of_mem (h : Ascending xs) (hx : x ∈ xs) : xs.lookup x.1 = some x.2 := by
  induction xs with
  | nil => cases hx
  | cons y ys ih =>
    obtain ⟨hy, hys⟩ := List.pairwise_cons.1 h
    rcases List.mem_cons.1 hx with rfl | hx
    · exact lookup_cons_self x.1 x.2 ys
    · have hne : x.1 ≠ y.1 := (Std.ne_of_lt (hy x hx)).symm
      rw [← ih hys hx]
      exact lookup_cons_ne hne y.2 ys

end UniformTree
