import UniformTree.Toml.Value
/-!
# TOML documents

A document is read line by line. Headers say which table the entries after them belong to.
-/

namespace UniformTree.Toml

/-- A document as far as it has been read. -/
structure Draft where
  root : Table
  /-- The path of the table that entries belong to. -/
  current : List String

namespace Draft

/-- Nothing has been read. -/
def empty : Draft := ⟨.empty .header, []⟩

/-- A header after its opening brackets. -/
def header (closing : List Char) (start : Table → List String → String → Option Table) (d : Draft)
    (s : List Char) : Option (Draft × List Char) := do
  let ((path, last), r) ← key s
  let r ← restOfLine? (← word? closing r)
  return (⟨← start d.root path last, path ++ [last]⟩, r)

/-- An entry. -/
def addEntry (d : Draft) (s : List Char) : Option (Draft × List Char) := do
  let ((path, last, v), r) ← entry (value (nestingLimit - 1)) s
  let r ← restOfLine? r
  return ({ d with root := ← d.root.insertAt d.current path last v }, r)

/-- A line that is not blank: a header or an entry. -/
def line (d : Draft) (s : List Char) : Option (Draft × List Char) :=
  match s with
  | '[' :: '[' :: r => header [']', ']'] Table.openElement d r
  | '[' :: r => header [']'] Table.openTable d r
  | s => d.addEntry s

/-- The rest of a document. -/
def readFrom (d : Draft) (s : List Char) : Option Table :=
  match skipFiller s with
  | [] => some d.root
  | r =>
    match d.line r with
    | none => none
    | some (d, r) => if r.length < s.length then readFrom d r else none
termination_by s.length

end Draft

/-- The text after a byte order mark, if it begins with one. -/
def skipMark : List Char → List Char
  | '\uFEFF' :: s => s
  | s => s

/-- The table that a document describes. -/
def read? (s : String) : Option Table := Draft.empty.readFrom (skipMark s.toList)

end UniformTree.Toml
