import UniformTree.Json.Members
import UniformTree.Proofs.Json.Strings
/-!
# Written members are read back

The readers for numbers, objects and arrays on text of the form that is written: without blanks,
each number followed by a comma or a bracket. What a reader of members or elements makes of a whole
object or array, also of any other text, follows from what it makes of one (`members_invariant`,
`elements_forall`).
-/

namespace UniformTree.Json

/-! ## Numbers -/

theorem le_valueFrom (acc : Nat) (ds : List Char) : acc ≤ Text.valueFrom acc ds := by
  induction ds generalizing acc with
  | nil => exact Nat.le_refl acc
  | cons d ds ih =>
    have := ih (acc * 10 + Text.digitValue d)
    rw [Text.valueFrom, List.foldl_cons, ← Text.valueFrom]
    omega

/-- Digits are taken in up to the first other character, as long as their value is small. -/
theorem takeIn_append (acc : Nat) {ds : List Char} (hd : ∀ d ∈ ds, Text.isDigit d = true)
    (hv : Text.valueFrom acc ds < wordLimit) {c : Char} (hc : Text.isDigit c = false)
    (r : List Char) : takeIn acc (ds ++ c :: r) = (Text.valueFrom acc ds, ds.length, c :: r) := by
  induction ds generalizing acc with
  | nil => simp [takeIn, hc, Text.valueFrom]
  | cons d ds ih =>
    have hnext : acc * 10 + Text.digitValue d < wordLimit :=
      Nat.lt_of_le_of_lt (le_valueFrom _ ds) hv
    rw [List.cons_append, takeIn, if_pos (hd d List.mem_cons_self), if_pos hnext,
      ih _ (fun e he => hd e (List.mem_cons_of_mem d he)) hv]
    rfl

/-- What comes after a written number. -/
def IsStop (c : Char) : Prop := c = ',' ∨ c = '\x7d'

theorem IsStop.not_digit {c : Char} (h : IsStop c) : Text.isDigit c = false := by
  rcases h with rfl | rfl <;> rfl

theorem afterInteger_stop {c : Char} (h : IsStop c) (n : Nat) (r : List Char) :
    afterInteger false n 0 (c :: r) = .ok (.natural n, c :: r) := by
  rcases h with rfl | rfl <;> rfl

theorem number_digits {n : Nat} (hn : n < wordLimit) {c : Char} (hc : IsStop c) (r : List Char) :
    number false (Text.digits n ++ c :: r) = .ok (.natural n, c :: r) := by
  by_cases h0 : n = 0
  · subst h0
    have : Text.digits 0 = ['0'] := by rw [Text.digits]; rfl
    rw [this, List.singleton_append, number]
    simp only [hc.not_digit]
    exact afterInteger_stop hc 0 r
  · obtain ⟨d, ds, hds, hd⟩ := Text.digits_head h0
    have hdigit : Text.isDigit d = true := Text.isDigit_of_mem_digits (n := n) (by simp [hds])
    have htake : takeIn 0 (Text.digits n ++ c :: r) = (n, (Text.digits n).length, c :: r) := by
      have hv : Text.valueFrom 0 (Text.digits n) = n := Text.valueOf_digits n
      have := takeIn_append 0 (fun d hd => Text.isDigit_of_mem_digits (n := n) hd)
        (by rw [hv]; exact hn) hc.not_digit r
      rwa [hv] at this
    have hlead : leadingDigits (c :: r) = [] := by simp [leadingDigits, hc.not_digit]
    have hafter : afterDigits (c :: r) = c :: r := by simp [afterDigits, hc.not_digit]
    rw [hds, List.cons_append] at htake ⊢
    rw [number, if_pos hdigit, htake]
    · simp only [hlead, hafter, List.length_nil]
      exact afterInteger_stop hc n r
    · exact hd

theorem skipSpace_digit {c : Char} (h : Text.isDigit c = true) (s : List Char) :
    skipSpace (c :: s) = c :: s := by
  have hs : isSpace c = false := by
    refine Bool.eq_false_iff.2 fun hs => ?_
    simp only [isSpace, Bool.or_eq_true, beq_iff_eq] at hs
    rcases hs with ((rfl | rfl) | rfl) | rfl <;> revert h <;> decide
  simp [skipSpace, hs]

/-- A written number of 32 bits is read back. -/
theorem readUInt32_digits (x : UInt32) {c : Char} (hc : IsStop c) (r : List Char) :
    readUInt32 (Text.digits x.toNat ++ c :: r) = .ok (x, c :: r) := by
  have hx : x.toNat < UInt32.size := x.toNat_lt_size
  have hnum := number_digits (Nat.lt_trans hx (by decide)) hc r
  cases hds : Text.digits x.toNat with
  | nil => rw [hds] at hnum; rcases hc with rfl | rfl <;> cases hnum
  | cons d ds =>
    have hd : Text.isDigit d = true := Text.isDigit_of_mem_digits (n := x.toNat) (by simp [hds])
    rw [hds, List.cons_append] at hnum
    rw [List.cons_append, readUInt32, skipSpace_digit hd]
    simp only [hd, if_true, hnum, if_pos hx, UInt32.ofNat_toNat]

/-! ## Members of objects -/

theorem ok_bind {ε α β : Type} (a : α) (f : α → Except ε β) : Except.ok a >>= f = f a := rfl

theorem ok_of_bind {ε α β : Type} {x : Except ε α} {f : α → Except ε β} {b : β}
    (h : x >>= f = .ok b) : ∃ a, x = .ok a ∧ f a = .ok b := by
  cases x with
  | error e => cases h
  | ok a => exact ⟨a, rfl, h⟩

theorem skipSpace_quote (s : List Char) : skipSpace ('"' :: s) = '"' :: s := rfl

theorem skipSpace_comma (s : List Char) : skipSpace (',' :: s) = ',' :: s := rfl

theorem nextKey_first (name r : List Char) :
    nextKey true (quote name ++ r) = .ok (some name, r) := by
  rw [quote_append]
  unfold nextKey
  rw [skipSpace_quote]
  simp [string_escapes, ok_bind, pure, Except.pure]

theorem nextKey_next (name r : List Char) :
    nextKey false (',' :: (quote name ++ r)) = .ok (some name, r) := by
  rw [quote_append]
  unfold nextKey
  rw [skipSpace_comma]
  simp [skipSpace_quote, string_escapes, ok_bind, pure, Except.pure]

section Loops

variable {σ α : Type} {member : List Char → σ → Reader σ} {element : Reader α} {acc acc' : σ}
  {name s r : List Char}

theorem members_close (first : Bool) (r : List Char) :
    members member first acc ('\x7d' :: r) = .ok (acc, r) := by
  rw [members]
  rfl

theorem members_first (hm : member name acc (':' :: s) = .ok (acc', r)) (hr : r.length ≤ s.length) :
    members member true acc (quote name ++ ':' :: s) = members member false acc' r := by
  rw [members, nextKey_first]
  simp only [hm]
  rw [if_pos]
  simp only [List.length_append, List.length_cons]
  omega

theorem members_next (hm : member name acc (':' :: s) = .ok (acc', r)) (hr : r.length ≤ s.length) :
    members member false acc (',' :: (quote name ++ ':' :: s)) = members member false acc' r := by
  rw [members, nextKey_next]
  simp only [hm]
  rw [if_pos]
  simp only [List.length_append, List.length_cons]
  omega

theorem members_next_error {f : Refusal} (hm : member name acc (':' :: s) = .error f) :
    members member false acc (',' :: (quote name ++ ':' :: s)) = .error f := by
  rw [members, nextKey_next]
  simp only [hm]

/-- What every member keeps, the whole object keeps. -/
theorem members_invariant {P : σ → Prop}
    (step : ∀ {key acc acc' s r}, P acc → member key acc s = .ok (acc', r) → P acc')
    {first : Bool} (h : P acc) (hm : members member first acc s = .ok (acc', r)) : P acc' := by
  fun_induction members member first acc s with
  | case1 => cases hm
  | case2 => cases hm; exact h
  | case3 => cases hm
  | case4 _ _ _ _ _ _ _ _ hk _ ih => exact ih (step h hk) hm
  | case5 => cases hm

/-! ## Elements of arrays -/

theorem elements_close (r : List Char) (first : Bool) :
    elements element first (']' :: r) = .ok ([], r) := by
  rw [elements]
  rfl

/-- Before an element that is an object there is nothing at first and a comma later. -/
def separated (first : Bool) (s : List Char) : List Char := if first then s else ',' :: s

theorem nextElement_separated (first : Bool) (s : List Char) :
    nextElement first (separated first ('\x7b' :: s)) = .ok (true, '\x7b' :: s) := by
  cases first <;> rfl

theorem elements_separated {first : Bool} {x : α} (he : element ('\x7b' :: s) = .ok (x, r))
    (hr : r.length ≤ s.length) :
    elements element first (separated first ('\x7b' :: s)) =
      (elements element false r).map fun p => (x :: p.1, p.2) := by
  have hlen : r.length < (separated first ('\x7b' :: s)).length := by
    cases first <;> simp [separated] <;> omega
  rw [elements, nextElement_separated]
  simp only [he, if_pos hlen]
  cases elements element false r <;> rfl

theorem elements_separated_error {first : Bool} {f : Refusal}
    (he : element ('\x7b' :: s) = .error f) :
    elements element first (separated first ('\x7b' :: s)) = .error f := by
  rw [elements, nextElement_separated]
  simp only [he]

/-- What holds of every element that is read, holds of the elements of an array. -/
theorem elements_forall {P : α → Prop} (step : ∀ {s x r}, element s = .ok (x, r) → P x)
    {first : Bool} {xs : List α} (h : elements element first s = .ok (xs, r)) : ∀ x ∈ xs, P x := by
  fun_induction elements element first s generalizing xs r with
  | case1 => cases h
  | case2 first s t ht =>
    obtain ⟨u, hu, h⟩ := ok_of_bind h
    cases h
    exact fun x hx => absurd hx List.not_mem_nil
  | case3 => cases h
  | case4 first s t ht x u hx hlen ih =>
    obtain ⟨⟨ys, v⟩, hys, h⟩ := ok_of_bind h
    cases h
    intro y hy
    rcases List.mem_cons.1 hy with rfl | hy
    · exact step hx
    · exact ih hys y hy
  | case5 => cases h

end Loops

end UniformTree.Json
