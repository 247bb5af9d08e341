import UniformTree.Error
import UniformTree.Tree.Builder
/-!
# Settings

How files are listed and what is kept of them. A setting may be left open; settings from several
layers are put together field by field.
-/

namespace UniformTree

/-- The settings that are made, each of which may be left open. -/
structure Settings where
  /-- The greatest size of a file, in bytes. -/
  maxFileSize : Option UInt64
  /-- The files of a directory are parsed at the same time. -/
  parallel : Option Bool
  /-- Comments are kept. -/
  includeComments : Option Bool
  /-- How many levels below the root the nodes of a source may lie. -/
  maxNesting : Option UInt32
deriving DecidableEq, Repr, Inhabited

namespace Settings

/-- Nothing is set. -/
def unset : Settings := ⟨none, none, none, none⟩

/-! ## What is in force -/

/-- The greatest size of a file, 16 MiB if it is left open. -/
def fileSizeLimit (s : Settings) : UInt64 := s.maxFileSize.getD (16 * 1024 * 1024)

/-- Whether files are parsed at the same time. -/
def isParallel (s : Settings) : Bool := s.parallel.getD true

/-- Whether comments are kept. -/
def keepsComments (s : Settings) : Bool := s.includeComments.getD true

/-- How many levels below the root the nodes of a source may lie. -/
def nestingLimit (s : Settings) : UInt32 := s.maxNesting.getD 1000

/-- What is kept of a source tree. -/
def buildOptions (s : Settings) : BuildOptions := ⟨s.keepsComments⟩

/-! ## Layers -/

/-- The settings of a layer, and where it leaves one open those of the layer below. -/
def above (upper lower : Settings) : Settings where
  maxFileSize := upper.maxFileSize <|> lower.maxFileSize
  parallel := upper.parallel <|> lower.parallel
  includeComments := upper.includeComments <|> lower.includeComments
  maxNesting := upper.maxNesting <|> lower.maxNesting

/-- Layers put together, the lowest one first. -/
def ofLayers (layers : List Settings) : Settings :=
  layers.foldl (fun below layer => layer.above below) unset

/-! ## Validity -/

/-- A setting that must not be zero. -/
def mustBePositive (field : String) : SettingsError := .invalid field "must be greater than 0"

/-- The first setting that has not a permitted value. -/
def invalid? (s : Settings) : Option SettingsError :=
  if s.maxFileSize = some 0 then some (mustBePositive "scan.max_file_size")
  else if s.maxNesting = some 0 then some (mustBePositive "tree.max_nesting")
  else none

/-- The settings, if all of them are permitted. -/
def validate (s : Settings) : Except SettingsError Settings :=
  match s.invalid? with
  | some e => .error e
  | none => .ok s

section Validity

variable {s t : Settings} {e : SettingsError}

theorem invalid?_eq_none_iff :
    s.invalid? = none ↔ s.maxFileSize ≠ some 0 ∧ s.maxNesting ≠ some 0 := by
  unfold invalid?
  by_cases hsize : s.maxFileSize = some 0 <;> by_cases hnesting : s.maxNesting = some 0 <;>
    simp [hsize, hnesting]

theorem invalid?_eq_some_iff :
    s.invalid? = some e ↔
      s.maxFileSize = some 0 ∧ e = mustBePositive "scan.max_file_size" ∨
      s.maxFileSize ≠ some 0 ∧ s.maxNesting = some 0 ∧ e = mustBePositive "tree.max_nesting" := by
  unfold invalid?
  by_cases hsize : s.maxFileSize = some 0 <;> by_cases hnesting : s.maxNesting = some 0 <;>
    simp [hsize, hnesting, eq_comm]

theorem validate_eq_ok_iff : s.validate = .ok t ↔ s.invalid? = none ∧ t = s := by
  unfold validate
  cases s.invalid? <;> simp [eq_comm]

theorem validate_eq_error_iff : s.validate = .error e ↔ s.invalid? = some e := by
  unfold validate
  cases s.invalid? <;> simp

end Validity

end Settings

end UniformTree
