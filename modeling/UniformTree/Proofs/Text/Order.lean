/-!
# The order of texts

Texts are ordered by their characters, and a file system orders names by their bytes. In UTF-8 the
two orders are one.
-/

namespace UniformTree.Text

/-- The UTF-8 bytes of a text. -/
def bytes (s : String) : List UInt8 := s.toUTF8.data.toList

theorem bytes_eq (s : String) : bytes s = s.toList.flatMap String.utf8EncodeChar := by
  have h : s.toByteArray = s.toList.utf8Encode := (String.utf8Encode_toList).symm
  rw [bytes, String.toUTF8_eq_toByteArray, h, List.utf8Encode]
  simp

theorem ofNat_lt {m n : Nat} (hm : m < 256) (hn : n < 256) :
    UInt8.ofNat m < UInt8.ofNat n ↔ m < n := by
  rw [UInt8.lt_iff_toNat_lt, UInt8.toNat_ofNat_of_lt' hm, UInt8.toNat_ofNat_of_lt' hn]

theorem ofNat_eq {m n : Nat} (hm : m < 256) (hn : n < 256) :
    UInt8.ofNat m = UInt8.ofNat n ↔ m = n := by
  rw [← UInt8.toNat_inj, UInt8.toNat_ofNat_of_lt' hm, UInt8.toNat_ofNat_of_lt' hn]

theorem toNat_lt (c : Char) : c.val.toNat < 0x110000 := by
  rcases c.valid with h | ⟨_, h⟩
  · exact Nat.lt_trans h (by decide)
  · exact h

/-- The bytes of a greater character are greater, whatever follows: a longer encoding has the
greater first byte, and encodings of one length hold the digits of the character from the first
one on. -/
theorem encode_append_lt {c d : Char} (h : c < d) (xs ys : List UInt8) :
    String.utf8EncodeChar c ++ xs < String.utf8EncodeChar d ++ ys := by
  have hcd : c.val.toNat < d.val.toNat := h
  have hd : d.val.toNat < 0x110000 := toNat_lt d
  unfold String.utf8EncodeChar
  generalize c.val.toNat = m at hcd
  generalize d.val.toNat = n at hcd hd
  have hranges (k : Nat) :
      k ≤ 127 ∨ 127 < k ∧ k ≤ 2047 ∨ 2047 < k ∧ k ≤ 65535 ∨ 65535 < k := by omega
  have htwice (k : Nat) : k / 4096 = k / 64 / 64 := (Nat.div_div_eq_div_mul k 64 64).symm
  have hthrice (k : Nat) : k / 262144 = k / 64 / 64 / 64 := by
    simp only [Nat.div_div_eq_div_mul]
  rcases hranges m with hm | hm | hm | hm <;> rcases hranges n with hn | hn | hn | hn
  all_goals
    first
    | omega
    | simp (disch := omega) only [if_pos, if_neg, List.cons_append, List.nil_append,
        List.cons_lt_cons_iff, ofNat_lt, ofNat_eq, htwice, hthrice]
      omega

theorem flatMap_encode_lt {cs ds : List Char} (h : cs < ds) :
    cs.flatMap String.utf8EncodeChar < ds.flatMap String.utf8EncodeChar := by
  induction h with
  | nil =>
    rename_i d ds
    rw [List.flatMap_nil, List.flatMap_cons]
    have hpos : String.utf8EncodeChar d ≠ [] := by
      intro hnil
      have hlength := String.length_utf8EncodeChar d
      rw [hnil] at hlength
      exact absurd hlength.symm (Nat.ne_of_gt d.utf8Size_pos)
    obtain ⟨b, bs, hb⟩ := List.exists_cons_of_ne_nil hpos
    rw [hb]
    exact List.nil_lt_cons b _
  | rel hcd => exact encode_append_lt hcd _ _
  | cons _ ih =>
    rw [List.flatMap_cons, List.flatMap_cons]
    exact List.append_left_lt ih

/-- A lesser text has lesser bytes. -/
theorem bytes_lt {s t : String} (h : s < t) : bytes s < bytes t := by
  rw [bytes_eq, bytes_eq]
  exact flatMap_encode_lt (String.lt_iff.1 h)

end UniformTree.Text
