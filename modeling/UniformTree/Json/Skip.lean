import UniformTree.Json.Number
/-!
# Skipping JSON values

A value that nobody asked for is passed over. It must be JSON, but it may nest as deep as it likes:
the brackets that are open are kept in a list.
-/

namespace UniformTree.Json

/-- A bracket that is open. -/
inductive Bracket where
  | square
  | curly
deriving DecidableEq, Repr

/-- The text after a value that is no array and no object. -/
def skipScalar (s : List Char) : Except Refusal (List Char) :=
  match s with
  | [] => .error .truncated
  | 'n' :: r => word "ull".toList r
  | 't' :: r => word "rue".toList r
  | 'f' :: r => word "alse".toList r
  | '"' :: r => skipString r
  | '-' :: r => skipNumber r
  | c :: r => if Text.isDigit c then skipNumber (c :: r) else .error .malformed

/-- The text after the key of an object and its colon. -/
def skipKey (s : List Char) : Except Refusal (List Char) :=
  match s with
  | [] => .error .truncated
  | '"' :: r => (skipString r).bind colon
  | _ => .error .malformed

/-- Where the skipping stands. -/
inductive Expect where
  /-- Before a value. -/
  | value
  /-- After an opening bracket. -/
  | first
  /-- After a value. -/
  | next

/-- One step of skipping: what to do next, with which brackets open, and the text that is left. When
there is nothing more to do the text is all that is left. -/
def skipStep (expect : Expect) (openings : List Bracket) (s : List Char) :
    Except Refusal (Option (Expect × List Bracket) × List Char) :=
  match expect, openings, skipSpace s with
  | .next, [], _ => .ok (none, s)
  | _, _, [] => .error .truncated
  | .value, _, '[' :: r => .ok (some (.first, .square :: openings), r)
  | .value, _, '\x7b' :: r => .ok (some (.first, .curly :: openings), r)
  | .value, _, r => (skipScalar r).map (some (.next, openings), ·)
  | _, .square :: above, ']' :: r => .ok (some (.next, above), r)
  | _, .curly :: above, '\x7d' :: r => .ok (some (.next, above), r)
  | .first, .square :: _, '[' :: r => .ok (some (.first, .square :: openings), r)
  | .first, .square :: _, '\x7b' :: r => .ok (some (.first, .curly :: openings), r)
  | .first, .square :: _, r => (skipScalar r).map (some (.next, openings), ·)
  | .first, .curly :: _, r => (skipKey r).map (some (.value, openings), ·)
  | .next, .square :: _, ',' :: r => .ok (some (.value, openings), r)
  | .next, .curly :: _, ',' :: r => (skipKey (skipSpace r)).map (some (.value, openings), ·)
  | _, _, _ => .error .malformed

theorem length_skipScalar {s r : List Char} (h : skipScalar s = .ok r) : r.length < s.length := by
  unfold skipScalar at h
  split at h
  · cases h
  · exact Nat.lt_succ_of_le (length_word h)
  · exact Nat.lt_succ_of_le (length_word h)
  · exact Nat.lt_succ_of_le (length_word h)
  · exact Nat.lt_succ_of_lt (length_skipString h)
  · exact Nat.lt_succ_of_lt (length_skipNumber h)
  · split at h
    · exact length_skipNumber h
    · cases h

theorem length_skipKey {s r : List Char} (h : skipKey s = .ok r) : r.length < s.length := by
  unfold skipKey at h
  split at h
  · cases h
  · rename_i t
    cases ht : skipString t with
    | error f => rw [ht] at h; cases h
    | ok u =>
      rw [ht] at h
      have := length_skipString ht
      have := length_colon h
      rw [List.length_cons]
      omega
  · cases h

/-- What is left stays short when a result is put beside it. -/
theorem length_lt_of_map_eq {α : Type} {x : Except Refusal (List Char)} {a b : α} {r : List Char}
    {n : Nat} (hx : ∀ {u}, x = .ok u → u.length < n) (h : x.map (a, ·) = .ok (b, r)) :
    r.length < n := by
  cases x with
  | error f => cases h
  | ok u =>
    cases h
    exact hx rfl

theorem length_skipStep {expect : Expect} {openings : List Bracket}
    {todo : Expect × List Bracket} {s r : List Char}
    (h : skipStep expect openings s = .ok (some todo, r)) : r.length < s.length := by
  have hs := length_skipSpace s
  unfold skipStep at h
  split at h <;> try cases h
  case h_5 | h_10 => exact Nat.lt_of_lt_of_le (length_lt_of_map_eq length_skipScalar h) hs
  case h_11 => exact Nat.lt_of_lt_of_le (length_lt_of_map_eq length_skipKey h) hs
  case h_13 t ht =>
    rw [ht, List.length_cons] at hs
    exact Nat.lt_of_lt_of_le (length_lt_of_map_eq length_skipKey h)
      (Nat.le_trans (length_skipSpace t) (Nat.le_of_succ_le hs))
  all_goals
    rename_i ht
    rw [ht] at hs
    exact hs

/-- The text after what is still to be skipped. -/
def skipFrom (expect : Expect) (openings : List Bracket) (s : List Char) :
    Except Refusal (List Char) :=
  match _h : skipStep expect openings s with
  | .error f => .error f
  | .ok (none, r) => .ok r
  | .ok (some (expect, openings), r) => skipFrom expect openings r
termination_by s.length
decreasing_by exact length_skipStep _h

/-- The text after a value. -/
def skipValue (s : List Char) : Except Refusal (List Char) := skipFrom .value [] s

end UniformTree.Json
