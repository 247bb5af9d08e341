import UniformTree.Json.Quote
import UniformTree.Json.Scan
/-!
# Strings that were written are read back

`string_escape` says what the reader makes of one written character, `string_quote` of a whole
string, whatever text comes after it.
-/

namespace UniformTree.Json

/-! ## Control characters -/

/-- The number of a control character is read from its two digits. -/
theorem hex4_control {n : Nat} (h : n < 0x20) (s : List Char) :
    hex4 ('0' :: '0' :: Text.hexDigit (n / 16) :: Text.hexDigit (n % 16) :: s) = .ok n := by
  have key : ∀ n : Fin 0x20,
      byteLength ['0', '0', Text.hexDigit (n / 16), Text.hexDigit (n % 16)] = 4 ∧
        Text.hexNumber? ['0', '0', Text.hexDigit (n / 16), Text.hexDigit (n % 16)] = some n.1 := by
    decide
  obtain ⟨hlen, hnum⟩ := key ⟨n, h⟩
  have hnum : Text.hexNumber? ['0', '0', Text.hexDigit (n / 16), Text.hexDigit (n % 16)] =
    some n := hnum
  have htake (a b c d : Char) : (a :: b :: c :: d :: s).take 4 = [a, b, c, d] := rfl
  rw [hex4, htake, hnum, if_neg (by rw [hlen]; decide)]

theorem string_control {c : Char} (h : c.toNat < 0x20) (s : List Char) :
    string ('\\' :: 'u' :: '0' :: '0' :: Text.hexDigit (c.toNat / 16) ::
      Text.hexDigit (c.toNat % 16) :: s) = prepend c (string s) := by
  have hlow : isLow c.toNat = false := by simp [isLow]; omega
  have hhigh : isHigh c.toNat = false := by simp [isHigh]; omega
  rw [string, hex4_control h]
  simp only [hlow, hhigh, Bool.not_false, if_true, Char.ofNat_toNat, List.drop_succ_cons,
    List.drop_zero]
  rfl

/-! ## Escapes -/

/-- A letter after a backslash stands for its character. -/
theorem string_escaped {l c : Char} (hu : l ≠ 'u') (h : escaped? l = some c) (s : List Char) :
    string ('\\' :: l :: s) = prepend c (string s) := by
  rw [string, h]
  exact hu

/-- A character that needs no backslash stands for itself. -/
theorem string_plain {c : Char} (hq : c ≠ '"') (hb : c ≠ '\\') (hc : ¬ c.toNat < 0x20)
    (s : List Char) : string (c :: s) = prepend c (string s) := by
  have hctrl : isControl c = false := by simp [isControl]; omega
  rw [string.eq_def]
  split <;> simp_all

/-- A written character is read back. -/
theorem string_escape (c : Char) (s : List Char) :
    string (escape c ++ s) = prepend c (string s) := by
  unfold escape
  split
  · subst c; exact string_escaped (by decide) rfl s
  split
  · subst c; exact string_escaped (by decide) rfl s
  split
  · subst c; exact string_escaped (by decide) rfl s
  split
  · subst c; exact string_escaped (by decide) rfl s
  split
  · subst c; exact string_escaped (by decide) rfl s
  split
  · subst c; exact string_escaped (by decide) rfl s
  split
  · subst c; exact string_escaped (by decide) rfl s
  split
  · rename_i h; exact string_control h s
  · rename_i hq hb _ _ _ _ _ hc; exact string_plain hq hb hc s

/-- The rest of a written string, after its opening quote, is read back. -/
theorem string_escapes (s r : List Char) : string (s.flatMap escape ++ '"' :: r) = .ok (s, r) := by
  induction s with
  | nil => rw [List.flatMap_nil, List.nil_append, string]
  | cons c s ih => rw [List.flatMap_cons, List.append_assoc, string_escape, ih]; rfl

theorem quote_append (s r : List Char) : quote s ++ r = '"' :: (s.flatMap escape ++ '"' :: r) := by
  simp only [quote, List.cons_append, List.append_assoc, List.nil_append]

end UniformTree.Json
