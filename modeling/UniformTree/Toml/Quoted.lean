import UniformTree.Text.Hex
import UniformTree.Toml.Scan
/-!
# Strings in TOML text

A string stands in double quotes, where a backslash begins an escape, or in single ones, where
nothing does. In three quotes it may go over several lines.
-/

namespace UniformTree.Toml

/-- A character before those of the rest of a string. -/
def prepend (c : Char) : Option (List Char × List Char) → Option (List Char × List Char)
  | some (cs, s) => some (c :: cs, s)
  | none => none

/-- The character whose number stands in hexadecimal digits. -/
def scalar? (digits : List Char) : Option Char :=
  match Text.hexNumber? digits with
  | some n => if n.isValidChar then some (Char.ofNat n) else none
  | none => none

/-- The character that an escape stands for, and how many characters of the text it takes after the
backslash. -/
def escape? : List Char → Option (Char × Nat)
  | 'b' :: _ => some ('\x08', 1)
  | 't' :: _ => some ('\t', 1)
  | 'n' :: _ => some ('\n', 1)
  | 'f' :: _ => some ('\x0c', 1)
  | 'r' :: _ => some ('\r', 1)
  | '"' :: _ => some ('"', 1)
  | '\\' :: _ => some ('\\', 1)
  | 'u' :: s => if s.length < 4 then none else (scalar? (s.take 4)).map (·, 5)
  | 'U' :: s => if s.length < 8 then none else (scalar? (s.take 8)).map (·, 9)
  | _ => none

/-- The rest of a string on one line after its opening double quote. -/
def basicString : Reader (List Char)
  | [] => none
  | '"' :: s => some ([], s)
  | '\\' :: s =>
    match escape? s with
    | some (c, taken) => prepend c (basicString (s.drop taken))
    | none => none
  | c :: s => if isText c then prepend c (basicString s) else none
termination_by s => s.length
decreasing_by all_goals simp only [List.length_cons, List.length_drop]; omega

/-- The rest of a string on one line after its opening single quote. -/
def literalString : Reader (List Char)
  | [] => none
  | '\'' :: s => some ([], s)
  | c :: s => if isText c then prepend c (literalString s) else none

/-- The end of a string in three quotes, after three of them: one or two more belong to the
string. -/
def closing (quote : Char) : List Char → List Char × List Char
  | c :: d :: s =>
    if c = quote ∧ d = quote then ([c, d], s)
    else if c = quote then ([c], d :: s)
    else ([], c :: d :: s)
  | [c] => if c = quote then ([c], []) else ([], [c])
  | [] => ([], [])

/-- The rest of a string in three double quotes. A backslash at the end of a line takes away the
line break and all spaces and line breaks after it. -/
def basicBlock : Reader (List Char)
  | [] => none
  | '"' :: '"' :: '"' :: s => some (closing '"' s)
  | '\n' :: s => prepend '\n' (basicBlock s)
  | '\r' :: '\n' :: s => prepend '\n' (basicBlock s)
  | '\\' :: s =>
    match _h : lineBreak? (skipSpace s) with
    | some r => basicBlock (skipBreaks r)
    | none =>
      match escape? s with
      | some (c, taken) => prepend c (basicBlock (s.drop taken))
      | none => none
  | c :: s => if isText c then prepend c (basicBlock s) else none
termination_by s => s.length
decreasing_by
  all_goals simp only [List.length_cons, List.length_drop]
  all_goals try omega
  have := length_lineBreak? _h
  have := length_skipSpace s
  have := length_skipBreaks r
  omega

/-- The rest of a string in three single quotes. -/
def literalBlock : Reader (List Char)
  | [] => none
  | '\'' :: '\'' :: '\'' :: s => some (closing '\'' s)
  | '\n' :: s => prepend '\n' (literalBlock s)
  | '\r' :: '\n' :: s => prepend '\n' (literalBlock s)
  | c :: s => if isText c then prepend c (literalBlock s) else none

/-- The text after the line break with which a block may begin. -/
def skipFirstBreak (s : List Char) : List Char := (lineBreak? s).getD s

/-- A string of any form, if a quote stands here. -/
def string? : Reader (List Char)
  | '"' :: '"' :: '"' :: s => basicBlock (skipFirstBreak s)
  | '\'' :: '\'' :: '\'' :: s => literalBlock (skipFirstBreak s)
  | '"' :: s => basicString s
  | '\'' :: s => literalString s
  | _ => none

end UniformTree.Toml
