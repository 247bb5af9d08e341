import UniformTree.Json.Scan
import UniformTree.Text.Binary64
import UniformTree.Text.Decimal
/-!
# Numbers in JSON text

A number is a natural number of 64 bits, or it is some other number of which only the form and the
range matter here: it must have a finite binary64 value.
-/

namespace UniformTree.Json

/-- A number that was read. -/
inductive Number where
  | natural (n : Nat)
  /-- A negative number, one with a point or an exponent, or one of more than 64 bits. -/
  | other
deriving DecidableEq, Repr

/-- The bound of the numbers that are kept exactly. -/
def wordLimit : Nat := UInt64.size

/-- Digits after a significand: those that it can take in while it stays below the bound, and how
many there are of them. The others are left. -/
def takeIn (significand : Nat) : List Char → Nat × Nat × List Char
  | [] => (significand, 0, [])
  | c :: s =>
    if Text.isDigit c then
      let next := significand * 10 + Text.digitValue c
      if next < wordLimit then
        let (n, count, rest) := takeIn next s
        (n, count + 1, rest)
      else (significand, 0, c :: s)
    else (significand, 0, c :: s)

/-- The digits at the front of a text. -/
def leadingDigits (s : List Char) : List Char := s.takeWhile Text.isDigit

/-- The text after its leading digits. -/
def afterDigits (s : List Char) : List Char := s.dropWhile Text.isDigit

/-- A number other than a natural one, if it is in range. -/
def inRange (significand : Nat) (exponent : Int) (s : List Char) :
    Except Refusal (Number × List Char) :=
  if Text.productOverflows significand exponent then .error .malformed else .ok (.other, s)

/-- The greatest exponent that is added up. -/
def exponentLimit : Nat := UInt32.size / 2 - 1

/-- The rest of a number after the letter of its exponent. -/
def exponentPart (significand : Nat) (exponent : Int) (s : List Char) :
    Except Refusal (Number × List Char) :=
  let (positive, s) := match s with
    | '+' :: r => (true, r)
    | '-' :: r => (false, r)
    | r => (true, r)
  match s with
  | [] => .error .truncated
  | c :: _ =>
    if !Text.isDigit c then .error .malformed
    else
      let e := Text.valueOf (leadingDigits s)
      if exponentLimit < e && positive && significand != 0 then .error .malformed
      else if exponentLimit < e then .ok (.other, afterDigits s)
      else inRange significand (if positive then exponent + e else exponent - e) (afterDigits s)

/-- The rest of a number after its digits: an exponent, or nothing. -/
def afterFraction (significand : Nat) (exponent : Int) (s : List Char) :
    Except Refusal (Number × List Char) :=
  match s with
  | 'e' :: r | 'E' :: r => exponentPart significand exponent r
  | r => inRange significand exponent r

/-- The rest of a number after its point. -/
def fractionPart (significand : Nat) (exponent : Int) (s : List Char) :
    Except Refusal (Number × List Char) :=
  match s with
  | [] => .error .truncated
  | c :: _ =>
    if !Text.isDigit c then .error .malformed
    else
      let (significand, count, rest) := takeIn significand s
      afterFraction significand (exponent - count) (afterDigits rest)

/-- The rest of a number after the digits before its point. -/
def afterInteger (negative : Bool) (significand : Nat) (dropped : Nat) (s : List Char) :
    Except Refusal (Number × List Char) :=
  match s with
  | '.' :: r => fractionPart significand dropped r
  | 'e' :: r | 'E' :: r => exponentPart significand dropped r
  | r =>
    if dropped = 0 then .ok (if negative then .other else .natural significand, r)
    else inRange significand dropped r

/-- A number, after its sign if it has one. -/
def number (negative : Bool) (s : List Char) : Except Refusal (Number × List Char) :=
  match s with
  | [] => .error .truncated
  | '0' :: r =>
    match r with
    | c :: _ => if Text.isDigit c then .error .malformed else afterInteger negative 0 0 r
    | [] => afterInteger negative 0 0 r
  | c :: _ =>
    if Text.isDigit c then
      let (significand, _, rest) := takeIn 0 s
      afterInteger negative significand (leadingDigits rest).length (afterDigits rest)
    else .error .malformed

/-! ## Numbers that do not matter -/

/-- The text after digits, of which there must be one. -/
def skipDigits (s : List Char) : Except Refusal (List Char) :=
  match s with
  | [] => .error .malformed
  | c :: _ => if Text.isDigit c then .ok (afterDigits s) else .error .malformed

/-- The text after an exponent, if one begins here. -/
def skipExponent (s : List Char) : Except Refusal (List Char) :=
  match s with
  | 'e' :: r | 'E' :: r =>
    match r with
    | '+' :: r | '-' :: r => skipDigits r
    | r => skipDigits r
  | r => .ok r

/-- The text after the digits before a point. A zero stands alone. -/
def skipWhole (s : List Char) : Except Refusal (List Char) :=
  match s with
  | '0' :: c :: r => if Text.isDigit c then .error .malformed else .ok (c :: r)
  | s => skipDigits s

/-- The text after the point and the exponent of a number, as far as they are there. -/
def skipFraction (s : List Char) : Except Refusal (List Char) :=
  match s with
  | '.' :: r => (skipDigits r).bind skipExponent
  | r => skipExponent r

/-- The text after a number whose sign has been read; where it breaks off it is malformed, also at
the end of the text. -/
def skipNumber (s : List Char) : Except Refusal (List Char) := (skipWhole s).bind skipFraction

/-! ## Skipping gets on -/

theorem length_afterDigits (s : List Char) : (afterDigits s).length ≤ s.length :=
  (List.dropWhile_sublist _).length_le

theorem length_skipDigits {s r : List Char} (h : skipDigits s = .ok r) :
    r.length < s.length := by
  unfold skipDigits at h
  split at h
  · cases h
  · rename_i c s
    split at h
    · rename_i hc
      cases h
      rw [afterDigits, List.dropWhile_cons_of_pos hc]
      exact Nat.lt_succ_of_le (length_afterDigits s)
    · cases h

theorem length_skipExponent {s r : List Char} (h : skipExponent s = .ok r) :
    r.length ≤ s.length := by
  unfold skipExponent at h
  split at h
  · split at h <;> have := length_skipDigits h <;> simp only [List.length_cons] at * <;> omega
  · split at h <;> have := length_skipDigits h <;> simp only [List.length_cons] at * <;> omega
  · cases h
    exact Nat.le_refl _

theorem length_skipWhole {s r : List Char} (h : skipWhole s = .ok r) : r.length < s.length := by
  unfold skipWhole at h
  split at h
  · split at h
    · cases h
    · cases h
      exact Nat.lt_succ_self _
  · exact length_skipDigits h

theorem length_skipFraction {s r : List Char} (h : skipFraction s = .ok r) :
    r.length ≤ s.length := by
  unfold skipFraction at h
  split at h
  · rename_i t
    cases hd : skipDigits t with
    | error f => rw [hd] at h; cases h
    | ok u =>
      rw [hd] at h
      have := length_skipDigits hd
      have := length_skipExponent h
      rw [List.length_cons]
      omega
  · exact length_skipExponent h

theorem length_skipNumber {s r : List Char} (h : skipNumber s = .ok r) : r.length < s.length := by
  unfold skipNumber at h
  cases hw : skipWhole s with
  | error f => rw [hw] at h; cases h
  | ok t =>
    rw [hw] at h
    have := length_skipWhole hw
    have := length_skipFraction h
    omega

end UniformTree.Json
