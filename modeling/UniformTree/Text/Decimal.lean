/-!
# Decimal digits

Natural numbers as decimal digits without leading zeros, and the number that digits denote. Writing
and reading are inverse to each other: `valueOf_digits`.
-/

namespace UniformTree.Text

/-- A decimal digit. -/
def isDigit (c : Char) : Bool := '0' ≤ c && c ≤ '9'

/-- The value of a decimal digit. -/
def digitValue (c : Char) : Nat := c.toNat - '0'.toNat

/-- The decimal digit of a value below ten. -/
def digitOf (d : Nat) : Char := Char.ofNat ('0'.toNat + d)

/-- The decimal digits of a number. -/
def digits (n : Nat) : List Char :=
  if n < 10 then [digitOf n] else digits (n / 10) ++ [digitOf (n % 10)]

/-- The number that decimal digits denote, after those that denote `acc`. -/
def valueFrom (acc : Nat) (ds : List Char) : Nat :=
  ds.foldl (fun n d => n * 10 + digitValue d) acc

/-- The number that decimal digits denote. -/
def valueOf (ds : List Char) : Nat := valueFrom 0 ds

/-- A number in decimal digits. -/
def decimal (n : Nat) : String := String.ofList (digits n)

theorem digitValue_digitOf {d : Nat} (h : d < 10) : digitValue (digitOf d) = d := by
  have : ∀ d : Fin 10, digitValue (digitOf d) = d := by decide
  exact this ⟨d, h⟩

theorem isDigit_digitOf {d : Nat} (h : d < 10) : isDigit (digitOf d) = true := by
  have : ∀ d : Fin 10, isDigit (digitOf d) = true := by decide
  exact this ⟨d, h⟩

theorem valueOf_digits (n : Nat) : valueOf (digits n) = n := by
  fun_induction digits n with
  | case1 n h => simp [valueOf, valueFrom, digitValue_digitOf h]
  | case2 n h ih =>
    have hm : n % 10 < 10 := Nat.mod_lt _ (by decide)
    rw [valueOf, valueFrom] at ih
    rw [valueOf, valueFrom, List.foldl_append, ih]
    simp only [List.foldl_cons, List.foldl_nil, digitValue_digitOf hm]
    omega

theorem isDigit_of_mem_digits {n : Nat} {c : Char} (h : c ∈ digits n) : isDigit c = true := by
  fun_induction digits n with
  | case1 n hn =>
    rw [List.mem_singleton.1 h]
    exact isDigit_digitOf hn
  | case2 n hn ih =>
    rcases List.mem_append.1 h with h | h
    · exact ih h
    · rw [List.mem_singleton.1 h]
      exact isDigit_digitOf (Nat.mod_lt _ (by decide))

/-- No number but zero begins with a zero. -/
theorem digits_head {n : Nat} (h : n ≠ 0) : ∃ d ds, digits n = d :: ds ∧ d ≠ '0' := by
  fun_induction digits n with
  | case1 n hn =>
    refine ⟨_, [], rfl, ?_⟩
    have : ∀ d : Fin 10, d.1 ≠ 0 → digitOf d ≠ '0' := by decide
    exact this ⟨n, hn⟩ h
  | case2 n hn ih =>
    obtain ⟨d, ds, hds, hd⟩ := ih (by omega)
    exact ⟨d, ds ++ [digitOf (n % 10)], by rw [hds, List.cons_append], hd⟩

end UniformTree.Text
