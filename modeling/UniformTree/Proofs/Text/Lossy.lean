import UniformTree.Proofs.Text.Order
import UniformTree.Text.Lossy
/-!
# Text that is read back from its bytes

The bytes of a character are read as this character, whatever bytes follow
(`decodeLossy_encode_append`). So the bytes of a text are read as this text, and of bytes that are
no text some are lost (`bytes_ofBytesLossy_iff`).
-/

namespace UniformTree.Text

variable {b c d e lo hi : UInt8} {n v : Nat} {rest : List UInt8}

/-! ## The bytes of one character -/

theorem not_outside (hlo : lo ≤ c) (hhi : c ≤ hi) :
    (decide (c < lo) || decide (hi < c)) = false := by
  simp [UInt8.not_lt.2 hlo, UInt8.not_lt.2 hhi]

theorem decodeLossy_one (hb : b < 0x80) :
    decodeLossy (b :: rest) = Char.ofNat b.toNat :: decodeLossy rest := by
  rw [decodeLossy.eq_def]
  exact if_pos hb

theorem decodeLossy_two (hb : ¬ b < 0x80) (hlead : leading b = some (1, lo, hi)) (hlo : lo ≤ c)
    (hhi : c ≤ hi) :
    decodeLossy (b :: c :: rest) =
      Char.ofNat (b.toNat % 0x20 * 0x40 + low c) :: decodeLossy rest := by
  rw [decodeLossy.eq_def]
  simp only [if_neg hb, hlead, not_outside hlo hhi]
  rfl

theorem decodeLossy_three (hb : ¬ b < 0x80) (hlead : leading b = some (2, lo, hi)) (hlo : lo ≤ c)
    (hhi : c ≤ hi) (hd : isContinuation d = true) :
    decodeLossy (b :: c :: d :: rest) =
      Char.ofNat ((b.toNat % 0x10 * 0x40 + low c) * 0x40 + low d) :: decodeLossy rest := by
  rw [decodeLossy.eq_def]
  simp only [if_neg hb, hlead, not_outside hlo hhi, hd]
  rfl

theorem decodeLossy_four (hb : ¬ b < 0x80) (hlead : leading b = some (3, lo, hi)) (hlo : lo ≤ c)
    (hhi : c ≤ hi) (hd : isContinuation d = true) (he : isContinuation e = true) :
    decodeLossy (b :: c :: d :: e :: rest) =
      Char.ofNat (((b.toNat % 0x08 * 0x40 + low c) * 0x40 + low d) * 0x40 + low e) ::
        decodeLossy rest := by
  rw [decodeLossy.eq_def]
  simp only [if_neg hb, hlead, not_outside hlo hhi, hd, he]
  rfl

/-! ## Leading and continuing bytes by their numbers -/

theorem ofNat_le {m : Nat} (hm : m < 256) (hn : n < 256) :
    UInt8.ofNat m ≤ UInt8.ofNat n ↔ m ≤ n := by
  rw [UInt8.le_iff_toNat_le, UInt8.toNat_ofNat_of_lt' hm, UInt8.toNat_ofNat_of_lt' hn]

theorem isContinuation_ofNat (hn : n < 64) : isContinuation (UInt8.ofNat (n + 128)) = true := by
  have hle : UInt8.ofNat 128 ≤ UInt8.ofNat (n + 128) :=
    (ofNat_le (by omega) (by omega)).2 (by omega)
  have hge : UInt8.ofNat (n + 128) ≤ UInt8.ofNat 191 :=
    (ofNat_le (by omega) (by omega)).2 (by omega)
  rw [isContinuation, Bool.and_eq_true]
  exact ⟨decide_eq_true hle, decide_eq_true hge⟩

theorem low_ofNat (hn : n < 64) : low (UInt8.ofNat (n + 128)) = n := by
  rw [low, UInt8.toNat_ofNat_of_lt' (show n + 128 < 256 by omega)]
  omega

theorem leading_ofNat (hn : n < 256) : leading (UInt8.ofNat n) =
    if 0xC2 ≤ n ∧ n ≤ 0xDF then some (1, 0x80, 0xBF)
    else if n = 0xE0 then some (2, 0xA0, 0xBF)
    else if n = 0xED then some (2, 0x80, 0x9F)
    else if 0xE1 ≤ n ∧ n ≤ 0xEF then some (2, 0x80, 0xBF)
    else if n = 0xF0 then some (3, 0x90, 0xBF)
    else if 0xF1 ≤ n ∧ n ≤ 0xF3 then some (3, 0x80, 0xBF)
    else if n = 0xF4 then some (3, 0x80, 0x8F)
    else none := by
  have htoNat : (UInt8.ofNat n).toNat = n := UInt8.toNat_ofNat_of_lt' hn
  simp [leading, UInt8.le_iff_toNat_le, ← UInt8.toNat_inj, htoNat]

/-- Two bytes hold no character that would fit into one. -/
theorem leading_two (h : 0x7F < v) (h' : v ≤ 0x7FF) :
    leading (UInt8.ofNat (v / 64 % 32 + 192)) = some (1, UInt8.ofNat 0x80, UInt8.ofNat 0xBF) := by
  rw [leading_ofNat (by omega), if_pos (by omega)]
  rfl

/-- Three bytes hold no character that would fit into two, and no surrogate. -/
theorem leading_three (h : 0x7FF < v) (h' : v ≤ 0xFFFF) (hv : v < 0xD800 ∨ 0xDFFF < v) :
    ∃ lo hi, leading (UInt8.ofNat (v / 4096 % 16 + 224)) =
        some (2, UInt8.ofNat lo, UInt8.ofNat hi) ∧
      lo ≤ v / 64 % 64 + 128 ∧ v / 64 % 64 + 128 ≤ hi ∧ hi < 256 := by
  have htwice : v / 4096 = v / 64 / 64 := (Nat.div_div_eq_div_mul v 64 64).symm
  rw [leading_ofNat (by omega), if_neg (by omega)]
  by_cases hoverlong : v / 4096 % 16 + 224 = 0xE0
  · rw [if_pos hoverlong]
    exact ⟨0xA0, 0xBF, rfl, by omega, by omega, by omega⟩
  by_cases hsurrogate : v / 4096 % 16 + 224 = 0xED
  · rw [if_neg hoverlong, if_pos hsurrogate]
    exact ⟨0x80, 0x9F, rfl, by omega, by omega, by omega⟩
  rw [if_neg hoverlong, if_neg hsurrogate, if_pos (by omega)]
  exact ⟨0x80, 0xBF, rfl, by omega, by omega, by omega⟩

/-- Four bytes hold no character that would fit into three, and none past the last one. -/
theorem leading_four (h : 0xFFFF < v) (hv : v < 0x110000) :
    ∃ lo hi, leading (UInt8.ofNat (v / 262144 % 8 + 240)) =
        some (3, UInt8.ofNat lo, UInt8.ofNat hi) ∧
      lo ≤ v / 4096 % 64 + 128 ∧ v / 4096 % 64 + 128 ≤ hi ∧ hi < 256 := by
  have hsplit : v / 262144 = v / 4096 / 64 := (Nat.div_div_eq_div_mul v 4096 64).symm
  rw [leading_ofNat (by omega), if_neg (by omega), if_neg (by omega), if_neg (by omega),
    if_neg (by omega)]
  by_cases hoverlong : v / 262144 % 8 + 240 = 0xF0
  · rw [if_pos hoverlong]
    exact ⟨0x90, 0xBF, rfl, by omega, by omega, by omega⟩
  by_cases hlast : v / 262144 % 8 + 240 = 0xF4
  · rw [if_neg hoverlong, if_neg (by omega), if_pos hlast]
    exact ⟨0x80, 0x8F, rfl, by omega, by omega, by omega⟩
  rw [if_neg hoverlong, if_pos (by omega)]
  exact ⟨0x80, 0xBF, rfl, by omega, by omega, by omega⟩

/-! ## Characters by their numbers -/

theorem not_ofNat_lt (h : 0x80 ≤ n) (hn : n < 256) : ¬ UInt8.ofNat n < 0x80 :=
  fun hlt => Nat.not_lt.2 h ((ofNat_lt hn (by decide)).1 hlt)

theorem decodeLossy_ofNat_one (h : v ≤ 0x7F) :
    decodeLossy (UInt8.ofNat v :: rest) = Char.ofNat v :: decodeLossy rest := by
  have hb : UInt8.ofNat v < UInt8.ofNat 0x80 := (ofNat_lt (by omega) (by omega)).2 (by omega)
  rw [decodeLossy_one hb, UInt8.toNat_ofNat_of_lt' (show v < 256 by omega)]

theorem decodeLossy_ofNat_two (h : 0x7F < v) (h' : v ≤ 0x7FF) :
    decodeLossy (UInt8.ofNat (v / 64 % 32 + 192) :: UInt8.ofNat (v % 64 + 128) :: rest) =
      Char.ofNat v :: decodeLossy rest := by
  have hb : ¬ UInt8.ofNat (v / 64 % 32 + 192) < 0x80 := not_ofNat_lt (by omega) (by omega)
  have hlo : UInt8.ofNat 0x80 ≤ UInt8.ofNat (v % 64 + 128) :=
    (ofNat_le (by omega) (by omega)).2 (by omega)
  have hhi : UInt8.ofNat (v % 64 + 128) ≤ UInt8.ofNat 0xBF :=
    (ofNat_le (by omega) (by omega)).2 (by omega)
  have hvalue : (v / 64 % 32 + 192) % 0x20 * 0x40 + v % 64 = v := by omega
  rw [decodeLossy_two hb (leading_two h h') hlo hhi, low_ofNat (by omega),
    UInt8.toNat_ofNat_of_lt' (show v / 64 % 32 + 192 < 256 by omega), hvalue]

theorem decodeLossy_ofNat_three (h : 0x7FF < v) (h' : v ≤ 0xFFFF)
    (hv : v < 0xD800 ∨ 0xDFFF < v) :
    decodeLossy (UInt8.ofNat (v / 4096 % 16 + 224) :: UInt8.ofNat (v / 64 % 64 + 128) ::
        UInt8.ofNat (v % 64 + 128) :: rest) = Char.ofNat v :: decodeLossy rest := by
  obtain ⟨lo, hi, hlead, hlo, hhi, hmax⟩ := leading_three h h' hv
  have hb : ¬ UInt8.ofNat (v / 4096 % 16 + 224) < 0x80 := not_ofNat_lt (by omega) (by omega)
  have hlo' := (ofNat_le (by omega) (by omega)).2 hlo
  have hhi' := (ofNat_le (by omega) hmax).2 hhi
  have hvalue : ((v / 4096 % 16 + 224) % 0x10 * 0x40 + v / 64 % 64) * 0x40 + v % 64 = v := by
    omega
  rw [decodeLossy_three hb hlead hlo' hhi' (isContinuation_ofNat (by omega)),
    low_ofNat (by omega), low_ofNat (by omega),
    UInt8.toNat_ofNat_of_lt' (show v / 4096 % 16 + 224 < 256 by omega), hvalue]

theorem decodeLossy_ofNat_four (h : 0xFFFF < v) (hv : v < 0x110000) :
    decodeLossy (UInt8.ofNat (v / 262144 % 8 + 240) :: UInt8.ofNat (v / 4096 % 64 + 128) ::
        UInt8.ofNat (v / 64 % 64 + 128) :: UInt8.ofNat (v % 64 + 128) :: rest) =
      Char.ofNat v :: decodeLossy rest := by
  obtain ⟨lo, hi, hlead, hlo, hhi, hmax⟩ := leading_four h hv
  have hb : ¬ UInt8.ofNat (v / 262144 % 8 + 240) < 0x80 := not_ofNat_lt (by omega) (by omega)
  have hlo' := (ofNat_le (by omega) (by omega)).2 hlo
  have hhi' := (ofNat_le (by omega) hmax).2 hhi
  have hvalue : (((v / 262144 % 8 + 240) % 0x08 * 0x40 + v / 4096 % 64) * 0x40 + v / 64 % 64) *
      0x40 + v % 64 = v := by omega
  rw [decodeLossy_four hb hlead hlo' hhi' (isContinuation_ofNat (by omega))
      (isContinuation_ofNat (by omega)), low_ofNat (by omega), low_ofNat (by omega),
    low_ofNat (by omega), UInt8.toNat_ofNat_of_lt' (show v / 262144 % 8 + 240 < 256 by omega),
    hvalue]

/-! ## Texts -/

/-- The bytes of a character are read as this character, whatever bytes follow. -/
theorem decodeLossy_encode_append (c : Char) (rest : List UInt8) :
    decodeLossy (String.utf8EncodeChar c ++ rest) = c :: decodeLossy rest := by
  have hvalid : c.val.toNat < 0xD800 ∨ 0xDFFF < c.val.toNat ∧ c.val.toNat < 0x110000 := c.valid
  have hback : Char.ofNat c.val.toNat = c := Char.ofNat_toNat c
  unfold String.utf8EncodeChar
  generalize c.val.toNat = v at hvalid hback
  rw [← hback]
  by_cases hone : v ≤ 0x7F
  · rw [if_pos hone]
    exact decodeLossy_ofNat_one hone
  by_cases htwo : v ≤ 0x7FF
  · rw [if_neg hone, if_pos htwo]
    exact decodeLossy_ofNat_two (by omega) htwo
  by_cases hthree : v ≤ 0xFFFF
  · rw [if_neg hone, if_neg htwo, if_pos hthree]
    exact decodeLossy_ofNat_three (by omega) hthree (by omega)
  · rw [if_neg hone, if_neg htwo, if_neg hthree]
    exact decodeLossy_ofNat_four (by omega) (by omega)

theorem decodeLossy_flatMap_encode (cs : List Char) (rest : List UInt8) :
    decodeLossy (cs.flatMap String.utf8EncodeChar ++ rest) = cs ++ decodeLossy rest := by
  induction cs with
  | nil => rfl
  | cons c cs ih =>
    rw [List.flatMap_cons, List.append_assoc, decodeLossy_encode_append, ih, List.cons_append]

/-- The bytes of a text are read as this text. -/
theorem ofBytesLossy_bytes (s : String) : ofBytesLossy (bytes s) = s := by
  have hdecode := decodeLossy_flatMap_encode s.toList []
  rw [List.append_nil, decodeLossy, List.append_nil] at hdecode
  rw [ofBytesLossy, bytes_eq, hdecode, String.ofList_toList]

theorem ofBytes?_eq_some_iff {bs : List UInt8} {s : String} :
    ofBytes? bs = some s ↔ bytes s = bs := by
  unfold ofBytes? String.fromUTF8?
  rw [Option.dite_none_right_eq_some]
  constructor
  · rintro ⟨hvalid, hs⟩
    rw [← Option.some.inj hs]
    rfl
  · rintro rfl
    exact ⟨s.isValidUTF8, rfl⟩

/-- Reading bytes as text keeps all of them exactly where they are UTF-8. -/
theorem bytes_ofBytesLossy_iff (bs : List UInt8) :
    bytes (ofBytesLossy bs) = bs ↔ ∃ s, ofBytes? bs = some s := by
  simp only [ofBytes?_eq_some_iff]
  constructor
  · exact fun h => ⟨ofBytesLossy bs, h⟩
  · rintro ⟨s, rfl⟩
    rw [ofBytesLossy_bytes]

/-- Each stray byte becomes one replacement character. -/
example : decodeLossy [0x61, 0xFF, 0xC0, 0x62] = ['a', replacement, replacement, 'b'] := by decide

/-- A cut-off character becomes one replacement character, however long its start is. -/
example : decodeLossy [0xF0, 0x9F, 0x8E, 0x61] = [replacement, 'a'] := by decide

/-- A surrogate in three bytes is three stray bytes. -/
example : decodeLossy [0xED, 0xA0, 0x80] = [replacement, replacement, replacement] := by decide

end UniformTree.Text
