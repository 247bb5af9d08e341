import UniformTree.Text.Hex
/-!
# Scanning JSON text

JSON is read from the front without looking ahead, so of several faults in a text the first one is
reported. The scanners take the rest of the text and give what is left after what they read.
-/

namespace UniformTree.Json

/-- Why a text is refused. -/
inductive Refusal where
  /-- The text ends where more of it was needed. -/
  | truncated
  /-- The text is no JSON, or nests too deep. -/
  | malformed
  /-- The text is JSON, but not of the form that was asked for. -/
  | mismatch
deriving DecidableEq, Repr

/-- What takes a value off the front of a text and gives the text after it, or refuses the text. -/
abbrev Reader (α : Type) := List Char → Except Refusal (α × List Char)

/-- A character that may stand between tokens. -/
def isSpace (c : Char) : Bool := c == ' ' || c == '\n' || c == '\t' || c == '\r'

/-- The text after what may stand between tokens. -/
def skipSpace (s : List Char) : List Char := s.dropWhile isSpace

theorem length_skipSpace (s : List Char) : (skipSpace s).length ≤ s.length :=
  (List.dropWhile_sublist _).length_le

/-- The text after the letters of a word. -/
def word : List Char → List Char → Except Refusal (List Char)
  | [], s => .ok s
  | _ :: _, [] => .error .truncated
  | w :: ws, c :: s => if c == w then word ws s else .error .malformed

/-- The text after a colon. -/
def colon (s : List Char) : Except Refusal (List Char) :=
  match skipSpace s with
  | [] => .error .truncated
  | ':' :: r => .ok r
  | _ => .error .malformed

theorem length_word {w s r : List Char} (h : word w s = .ok r) : r.length ≤ s.length := by
  fun_induction word w s with
  | case1 s =>
    cases h
    exact Nat.le_refl _
  | case2 => cases h
  | case3 w ws c s hc ih => exact Nat.le_succ_of_le (ih h)
  | case4 => cases h

theorem length_colon {s r : List Char} (h : colon s = .ok r) : r.length < s.length := by
  have hs := length_skipSpace s
  unfold colon at h
  split at h
  · cases h
  · rename_i t ht
    cases h
    rw [ht] at hs
    exact hs
  · cases h

/-! ## Strings -/

/-- The number of bytes that characters take. -/
def byteLength (s : List Char) : Nat := s.foldr (fun c n => c.utf8Size + n) 0

/-- The number that the four digits at the front denote. With less than four bytes left the text
has ended; which bytes they are does not matter. -/
def hex4 (s : List Char) : Except Refusal Nat :=
  if byteLength (s.take 4) < 4 then .error .truncated
  else
    match Text.hexNumber? (s.take 4) with
    | some n => .ok n
    | none => .error .malformed

/-- The character that a letter after a backslash stands for. -/
def escaped? : Char → Option Char
  | '"' => some '"'
  | '\\' => some '\\'
  | '/' => some '/'
  | 'b' => some '\x08'
  | 'f' => some '\x0c'
  | 'n' => some '\n'
  | 'r' => some '\r'
  | 't' => some '\t'
  | _ => none

/-- The first half of a surrogate pair. -/
def isHigh (n : Nat) : Bool := 0xD800 ≤ n && n ≤ 0xDBFF

/-- The second half of a surrogate pair. -/
def isLow (n : Nat) : Bool := 0xDC00 ≤ n && n ≤ 0xDFFF

/-- The character that a surrogate pair stands for. -/
def ofPair (high low : Nat) : Char :=
  Char.ofNat ((high - 0xD800) * 0x400 + (low - 0xDC00) + 0x10000)

/-- A character that must not stand in a string as it is. -/
def isControl (c : Char) : Bool := c.toNat < 0x20

/-- A character before those of the rest of a string. -/
def prepend (c : Char) :
    Except Refusal (List Char × List Char) → Except Refusal (List Char × List Char)
  | .ok (cs, s) => .ok (c :: cs, s)
  | .error f => .error f

/-- The rest of a string after its opening quote. -/
def string : Reader (List Char)
  | [] => .error .truncated
  | '"' :: s => .ok ([], s)
  | '\\' :: [] => .error .truncated
  | '\\' :: 'u' :: s =>
    match hex4 s with
    | .error f => .error f
    | .ok n =>
      if isLow n then .error .malformed
      else if !isHigh n then prepend (Char.ofNat n) (string (s.drop 4))
      else
        match s.drop 4 with
        | [] | ['\\'] => .error .truncated
        | '\\' :: 'u' :: _ =>
          match hex4 (s.drop 6) with
          | .error f => .error f
          | .ok m =>
            if isLow m then prepend (ofPair n m) (string (s.drop 10)) else .error .malformed
        | _ => .error .malformed
  | '\\' :: c :: s =>
    match escaped? c with
    | some e => prepend e (string s)
    | none => .error .malformed
  | c :: s => if isControl c then .error .malformed else prepend c (string s)
termination_by s => s.length
decreasing_by all_goals simp only [List.length_cons, List.length_drop]; omega

/-- The text after a string whose opening quote has been read and whose characters do not matter;
its surrogates need not be paired. -/
def skipString : List Char → Except Refusal (List Char)
  | [] => .error .truncated
  | '"' :: s => .ok s
  | '\\' :: [] => .error .truncated
  | '\\' :: 'u' :: s =>
    match hex4 s with
    | .error f => .error f
    | .ok _ => skipString (s.drop 4)
  | '\\' :: c :: s => if (escaped? c).isSome then skipString s else .error .malformed
  | c :: s => if isControl c then .error .malformed else skipString s
termination_by s => s.length
decreasing_by all_goals simp only [List.length_cons, List.length_drop]; omega

theorem length_skipString {s r : List Char} (h : skipString s = .ok r) :
    r.length < s.length := by
  fun_induction skipString s <;> simp_all <;> omega

end UniformTree.Json
