import UniformTree.Toml.Moment
import UniformTree.Toml.Number
import UniformTree.Toml.Quoted
/-!
# Values in TOML text

A value, and the keys before it. Arrays and tables in braces may lie within each other as deep as a
given number says.
-/

namespace UniformTree.Toml

/-! ## Keys -/

/-- A character of a key without quotes. -/
def isBare (c : Char) : Bool :=
  ('A' ≤ c && c ≤ 'Z') || ('a' ≤ c && c ≤ 'z') || Text.isDigit c || c == '-' || c == '_'

/-- One part of a key. -/
def keyPart : Reader String
  | '"' :: s => (basicString s).map fun (cs, r) => (String.ofList cs, r)
  | '\'' :: s => (literalString s).map fun (cs, r) => (String.ofList cs, r)
  | s =>
    match s.takeWhile isBare with
    | [] => none
    | cs => some (String.ofList cs, s.dropWhile isBare)

/-- The parts of a key with dots between them, as those before the last one and the last one. -/
def keyParts (s : List Char) : Option ((List String × String) × List Char) :=
  match keyPart (skipSpace s) with
  | none => none
  | some (k, r) =>
    match skipSpace r with
    | '.' :: r =>
      if r.length < s.length then
        (keyParts r).map fun ((path, last), r) => ((k :: path, last), r)
      else none
    | r => some (([], k), r)
termination_by s.length

/-- So many parts a key has not, and so many brackets are not open at once. -/
def nestingLimit : Nat := 80

/-- A key of not too many parts. -/
def key (s : List Char) : Option ((List String × String) × List Char) :=
  match keyParts s with
  | some (k, r) => if k.1.length + 1 < nestingLimit then some (k, r) else none
  | none => none

/-! ## Values -/

/-- A value that stands in no brackets. -/
def scalar (s : List Char) : Option (Value × List Char) :=
  match s with
  | '"' :: _ | '\'' :: _ => (string? s).map fun (cs, r) => (.string (String.ofList cs), r)
  | 't' :: r => (word? "rue".toList r).map (.boolean true, ·)
  | 'f' :: r => (word? "alse".toList r).map (.boolean false, ·)
  | s => if beginsDate s || beginsTime s then (moment? s).map (.dateTime, ·) else number? s

/-- The elements of an array after its opening bracket or a comma, up to the closing bracket. -/
def elements (value : Reader Value) (s : List Char) : Option ((List Value) × List Char) :=
  match skipFiller s with
  | ']' :: r => some ([], r)
  | r =>
    match value r with
    | none => none
    | some (v, r) =>
      match skipFiller r with
      | ']' :: r => some ([v], r)
      | ',' :: r =>
        if r.length < s.length then (elements value r).map fun (vs, r) => (v :: vs, r) else none
      | _ => none
termination_by s.length

/-- A key with its value. -/
def entry (value : Reader Value) (s : List Char) :
    Option ((List String × String × Value) × List Char) :=
  match key s with
  | some ((path, last), '=' :: r) =>
    (value (skipSpace r)).map fun (v, r) => ((path, last, v), r)
  | _ => none

/-- The entries of a table in braces, from the first of them on, up to the closing brace. -/
def inlineEntries (value : Reader Value) (t : Table) (s : List Char) : Option (Table × List Char) :=
  match entry value s with
  | none => none
  | some ((path, last, v), r) =>
    match t.insert path last v with
    | none => none
    | some t =>
      match skipSpace r with
      | '\x7d' :: r => some (t, r)
      | ',' :: r => if r.length < s.length then inlineEntries value t r else none
      | _ => none
termination_by s.length

/-- A table in braces after the opening one. -/
def inlineTable (value : Reader Value) (s : List Char) : Option (Value × List Char) :=
  match skipSpace s with
  | '\x7d' :: r => some (.table .inline [], r)
  | _ => (inlineEntries value (.empty .header) s).map fun (t, r) => (.table .inline t.entries, r)

/-- A value in which up to `depth` brackets are open at once. -/
def value : Nat → Reader Value
  | 0, s =>
    match s with
    | '[' :: _ | '\x7b' :: _ => none
    | s => scalar s
  | depth + 1, s =>
    match s with
    | '[' :: r => (elements (value depth) r).map fun (vs, r) => (.array vs, r)
    | '\x7b' :: r => inlineTable (value depth) r
    | s => scalar s

end UniformTree.Toml
