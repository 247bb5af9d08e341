import UniformTree.Settings.Basic
import UniformTree.Toml.Document
/-!
# Settings as TOML

Settings are written as the two tables `scan` and `tree`, each with a line per setting that is made.
Where a table is read an array of its values in order will do as well. What nobody asks for is
passed over, but it must be TOML.
-/

namespace UniformTree

namespace Settings

/-! ## Writing -/

/-- The line of a setting, if it is made. -/
def settingLine {α : Type} (key : String) (write : α → String) : Option α → String
  | none => ""
  | some x => key ++ " = " ++ write x ++ "\n"

/-- A truth value as it is written. -/
def flag (yes : Bool) : String := if yes then "true" else "false"

/-- The settings as they are written when no number is too great. -/
def text (s : Settings) : String :=
  "[scan]\n" ++
    settingLine "max_file_size" (fun n => Text.decimal n.toNat) s.maxFileSize ++
    settingLine "parallel" flag s.parallel ++
  "\n[tree]\n" ++
    settingLine "include_comments" flag s.includeComments ++
    settingLine "max_nesting" (fun n => Text.decimal n.toNat) s.maxNesting

/-- The settings as TOML. -/
def toToml (s : Settings) : Except SettingsError String :=
  if s.maxFileSize.any (Toml.integerLimit ≤ ·.toNat) then
    .error (.unreadable "<serialization>" "a number is too great")
  else .ok s.text

/-! ## Reading -/

/-- What the fields of a record are found in. -/
inductive Record where
  | named (entries : List (String × Toml.Value))
  | listed (values : List Toml.Value)

/-- The value of a field, given its name and its place. -/
def Record.field? (r : Record) (name : String) (place : Nat) : Option Toml.Value :=
  match r with
  | named entries => entries.lookup name
  | listed values => values[place]?

/-- The record that a value holds. A date has no field that anybody knows. -/
def record? : Toml.Value → Option Record
  | .table _ entries => some (.named entries)
  | .array values => some (.listed values)
  | .tables last before =>
    some (.listed ((before.reverse ++ [last]).map fun entries => .table .header entries))
  | .dateTime => some (.named [])
  | _ => none

/-- A natural number below a bound. -/
def natural? (bound : Nat) : Toml.Value → Option Nat
  | .integer (.ofNat n) => if n < bound then some n else none
  | _ => none

/-- A truth value. -/
def boolean? : Toml.Value → Option Bool
  | .boolean yes => some yes
  | _ => none

/-- A setting that may be left open: `none` if its value is of the wrong type. -/
def setting? {α : Type} (read : Toml.Value → Option α) : Option Toml.Value → Option (Option α)
  | none => some none
  | some v => (read v).map some

/-- A table that may be left out. -/
def section? : Option Toml.Value → Option Record
  | none => some (.named [])
  | some v => record? v

/-- The settings in the entries of a document, not validated. -/
def ofEntries? (entries : List (String × Toml.Value)) : Option Settings := do
  let scan ← section? (entries.lookup "scan")
  let maxFileSize ← setting? (natural? UInt64.size) (scan.field? "max_file_size" 0)
  let parallel ← setting? boolean? (scan.field? "parallel" 1)
  let tree ← section? (entries.lookup "tree")
  let includeComments ← setting? boolean? (tree.field? "include_comments" 0)
  let maxNesting ← setting? (natural? UInt32.size) (tree.field? "max_nesting" 1)
  return ⟨maxFileSize.map .ofNat, parallel, includeComments, maxNesting.map .ofNat⟩

/-- The settings in a text that stands at a path, not validated. -/
def read (path text : String) : Except SettingsError Settings :=
  match Toml.read? text with
  | none => .error (.unreadable path "the text is not TOML")
  | some t =>
    match ofEntries? t.entries with
    | none => .error (.unreadable path "a value is of the wrong type")
    | some s => .ok s

/-- The settings in a text. -/
def ofToml (text : String) : Except SettingsError Settings :=
  (read "<string>" text).bind validate

end Settings

end UniformTree
