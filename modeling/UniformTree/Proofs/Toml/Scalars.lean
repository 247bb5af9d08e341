import UniformTree.Toml.Value
/-!
# Values at the end of a line are read back

Truth values and natural numbers in decimal digits, read as the value of a key with a line break
after it. Digits could go on as a date, as a float or as a number to another base: what stands after
them decides, and the line break rules all of it out.
-/

namespace UniformTree.Toml

open Text (isDigit digits digits_head isDigit_of_mem_digits valueOf_digits)

/-- A text that is read as a value wherever it stands at the end of a line. -/
def Reads (text : List Char) (v : Value) : Prop :=
  ∀ depth rest, value depth (skipSpace (text ++ '\n' :: rest)) = some (v, '\n' :: rest)

/-! ## Classes of characters -/

section Classes

variable {p : Char → Bool} {c d : Char} {s t : List Char}

theorem ne_of_class (hc : p c = true) (hd : p d = false) : c ≠ d := by
  rintro rfl
  exact Bool.false_ne_true (hd.symm.trans hc)

theorem cons_ne_of_class (hc : p c = true) (hd : p d = false) : c :: s ≠ d :: t :=
  fun heq => ne_of_class hc hd (List.cons.inj heq).1

theorem isSpace_of_class (hc : p c = true) (hblank : p ' ' = false) (htab : p '\t' = false) :
    isSpace c = false := by
  rw [isSpace, beq_false_of_ne (ne_of_class hc hblank), beq_false_of_ne (ne_of_class hc htab)]
  rfl

theorem skipSpace_of_class (hc : p c = true) (hblank : p ' ' = false) (htab : p '\t' = false) :
    skipSpace (c :: s) = c :: s :=
  List.dropWhile_cons_of_neg (Bool.eq_false_iff.1 (isSpace_of_class hc hblank htab))

end Classes

theorem reads_true : Reads "true".toList (.boolean true) := by
  intro depth rest
  cases depth <;> rfl

theorem reads_false : Reads "false".toList (.boolean false) := by
  intro depth rest
  cases depth <;> rfl

/-! ## Digits -/

section Digits

variable {d : Char} {ds : List Char} {n : Nat} (rest : List Char)

theorem moreDigits_line (h : ∀ d ∈ ds, isDigit d = true) :
    moreDigits isDigit (ds ++ '\n' :: rest) = some (ds, '\n' :: rest) := by
  induction ds with
  | nil => simp [moreDigits, isDigit]
  | cons d ds ih =>
    have hd : isDigit d = true := h d List.mem_cons_self
    have hds := ih fun e he => h e (List.mem_cons_of_mem d he)
    rw [List.cons_append, moreDigits, if_pos hd, hds]
    · rfl
    · exact fun heq => absurd heq (ne_of_class hd rfl)
    · exact fun _ _ heq => absurd heq (ne_of_class hd rfl)

/-- The digits of a number, the first one apart. -/
theorem exists_digits (n : Nat) :
    ∃ d ds, digits n = d :: ds ∧ isDigit d = true ∧ (d = '0' → ds = []) := by
  by_cases h0 : n = 0
  · subst h0
    exact ⟨'0', [], by rw [digits]; rfl, rfl, fun _ => rfl⟩
  · obtain ⟨d, ds, hds, hd⟩ := digits_head h0
    have hmem : d ∈ digits n := by rw [hds]; exact List.mem_cons_self
    exact ⟨d, ds, hds, isDigit_of_mem_digits hmem, fun h => absurd h hd⟩

theorem wholeDigits_line (n : Nat) :
    wholeDigits (digits n ++ '\n' :: rest) = some (digits n, '\n' :: rest) := by
  have hall : ∀ e ∈ digits n, isDigit e = true := fun e he => isDigit_of_mem_digits he
  obtain ⟨d, ds, hds, hd, hzero⟩ := exists_digits n
  rw [hds] at hall ⊢
  by_cases h : d = '0'
  · rw [hzero h, h]
    rfl
  · have hmore := moreDigits_line rest fun e he => hall e (List.mem_cons_of_mem d he)
    rw [List.cons_append, wholeDigits, someDigits, if_pos hd, hmore]
    · rfl
    · intro _ heq
      exact h (List.cons.inj heq).1

theorem decimal?_line (hn : n < integerLimit) :
    decimal? false (digits n ++ '\n' :: rest) = some (.integer n, '\n' :: rest) := by
  unfold decimal?
  rw [wholeDigits_line rest n]
  simp [integer?, valueOf_digits, hn]

/-- A number in decimal digits. -/
theorem number?_line (hn : n < integerLimit) :
    number? (digits n ++ '\n' :: rest) = some (.integer n, '\n' :: rest) := by
  have hdecimal := decimal?_line rest hn
  obtain ⟨d, ds, hds, hd, hzero⟩ := exists_digits n
  rw [hds, List.cons_append] at hdecimal ⊢
  -- after a zero that is the whole number there is no letter of a base
  have hbase {c : Char} {s : List Char} (hc : c ≠ '\n')
      (heq : d :: (ds ++ '\n' :: rest) = '0' :: c :: s) : False := by
    obtain ⟨hd0, htail⟩ := List.cons.inj heq
    rw [hzero hd0] at htail
    exact hc (List.cons.inj htail).1.symm
  rw [number?, signed?, hdecimal]
  · exact fun _ => cons_ne_of_class hd rfl
  · exact fun _ => cons_ne_of_class hd rfl
  · exact fun _ => cons_ne_of_class hd rfl
  · exact fun _ => cons_ne_of_class hd rfl
  · exact fun _ => hbase (by decide)
  · exact fun _ => hbase (by decide)
  · exact fun _ => hbase (by decide)

/-! ## Numbers as values -/

theorem dropWhile_line (h : ∀ d ∈ ds, isDigit d = true) :
    (ds ++ '\n' :: rest).dropWhile isDigit = '\n' :: rest := by
  rw [List.dropWhile_append_of_pos h, List.dropWhile_cons_of_neg (by decide)]

theorem beginsDate_line (h : ∀ d ∈ ds, isDigit d = true) :
    beginsDate (ds ++ '\n' :: rest) = false := by
  have hdrop := dropWhile_line rest h
  unfold beginsDate
  split
  next a b c d s heq =>
    refine Bool.eq_false_iff.2 fun hdigits => ?_
    simp only [List.all_cons, List.all_nil, Bool.and_true, Bool.and_eq_true] at hdigits
    have hstop : isDigit '-' = false := rfl
    simp [heq, hdigits, hstop] at hdrop
  next => rfl

theorem beginsTime_line (h : ∀ d ∈ ds, isDigit d = true) :
    beginsTime (ds ++ '\n' :: rest) = false := by
  have hdrop := dropWhile_line rest h
  unfold beginsTime
  split
  next a b s heq =>
    refine Bool.eq_false_iff.2 fun hdigits => ?_
    rw [Bool.and_eq_true] at hdigits
    have hstop : isDigit ':' = false := rfl
    simp [heq, hdigits, hstop] at hdrop
  next => rfl

theorem scalar_line (hn : n < integerLimit) :
    scalar (digits n ++ '\n' :: rest) = some (.integer n, '\n' :: rest) := by
  have hall : ∀ e ∈ digits n, isDigit e = true := fun e he => isDigit_of_mem_digits he
  have hdate := beginsDate_line rest hall
  have htime := beginsTime_line rest hall
  have hnumber := number?_line rest hn
  obtain ⟨d, ds, hds, hd, -⟩ := exists_digits n
  rw [hds, List.cons_append] at hdate htime hnumber ⊢
  rw [scalar, hdate, htime, hnumber]
  · rfl
  all_goals exact fun _ => cons_ne_of_class hd rfl

end Digits

/-- A number in decimal digits, if it is in the range of integers. -/
theorem reads_digits {n : Nat} (hn : n < integerLimit) : Reads (digits n) (.integer n) := by
  intro depth rest
  have hscalar := scalar_line rest hn
  obtain ⟨d, ds, hds, hd, -⟩ := exists_digits n
  rw [hds, List.cons_append] at hscalar ⊢
  rw [skipSpace_of_class hd rfl rfl]
  cases depth with
  | zero =>
    rw [value, hscalar]
    all_goals exact fun _ => cons_ne_of_class hd rfl
  | succ depth =>
    rw [value, hscalar]
    all_goals exact fun _ => cons_ne_of_class hd rfl

end UniformTree.Toml
