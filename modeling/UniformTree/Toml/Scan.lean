/-!
# Scanning TOML text

Spaces, line breaks and comments. The scanners take the rest of the text and give what is left
after what they read, or `none` if the text is no TOML.
-/

namespace UniformTree.Toml

/-- What takes a value off the front of a text and gives the text after it. -/
abbrev Reader (α : Type) := List Char → Option (α × List Char)

/-- A space or a tab. -/
def isSpace (c : Char) : Bool := c == ' ' || c == '\t'

/-- A character that may stand in a comment, or in a string if it has no meaning there. -/
def isText (c : Char) : Bool := c == '\t' || (0x20 ≤ c.toNat && c.toNat != 0x7F)

/-- The text after its spaces. -/
def skipSpace (s : List Char) : List Char := s.dropWhile isSpace

/-- The text after the line break with which it begins. -/
def lineBreak? : List Char → Option (List Char)
  | '\n' :: s => some s
  | '\r' :: '\n' :: s => some s
  | _ => none

/-- The text after a line break, or nothing at the end of the text. -/
def lineEnd? : List Char → Option (List Char)
  | [] => some []
  | s => lineBreak? s

/-- The text after a comment, if one begins here. -/
def skipComment : List Char → List Char
  | '#' :: s => s.dropWhile isText
  | s => s

/-- The text after the end of a line on which nothing more stands than a comment. -/
def restOfLine? (s : List Char) : Option (List Char) := lineEnd? (skipComment (skipSpace s))

/-- The text after spaces and line breaks. -/
def skipBreaks : List Char → List Char
  | '\n' :: s => skipBreaks s
  | '\r' :: '\n' :: s => skipBreaks s
  | c :: s => if isSpace c then skipBreaks s else c :: s
  | [] => []

theorem length_skipSpace (s : List Char) : (skipSpace s).length ≤ s.length :=
  (List.dropWhile_sublist _).length_le

theorem length_lineBreak? {s r : List Char} (h : lineBreak? s = some r) :
    r.length < s.length := by
  unfold lineBreak? at h
  split at h <;> cases h <;> simp only [List.length_cons] <;> omega

theorem length_skipBreaks (s : List Char) : (skipBreaks s).length ≤ s.length := by
  fun_induction skipBreaks s <;> simp_all <;> omega

/-- The text after spaces, line breaks and comments. -/
def skipFiller (s : List Char) : List Char :=
  match _h : skipBreaks s with
  | '#' :: r => skipFiller (r.dropWhile isText)
  | r => r
termination_by s.length
decreasing_by
  have hs := length_skipBreaks s
  rw [_h, List.length_cons] at hs
  exact Nat.lt_of_lt_of_le (Nat.lt_succ_of_le (List.dropWhile_sublist isText).length_le) hs

/-- The text after the letters of a word. -/
def word? : List Char → List Char → Option (List Char)
  | [], s => some s
  | _ :: _, [] => none
  | w :: ws, c :: s => if c = w then word? ws s else none

end UniformTree.Toml
