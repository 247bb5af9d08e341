import UniformTree.Settings.Toml
/-!
# Settings in force

The settings of a project come from its file, from the environment and from the caller, each over
the ones before. An environment variable that cannot be read counts as not set.
-/

namespace UniformTree

/-- The value of each environment variable that is set. -/
abbrev Environment := String → Option String

namespace Settings

/-- The name of the file in which a project keeps its settings. -/
def fileName : String := "goast.toml"

/-- A natural number below a bound in decimal digits, perhaps with a plus sign. -/
def parseNatural? (bound : Nat) (s : String) : Option Nat :=
  let digits := match s.toList with
    | '+' :: ds => ds
    | ds => ds
  if !digits.isEmpty && digits.all Text.isDigit && Text.valueOf digits < bound then
    some (Text.valueOf digits)
  else none

/-- A truth value by its name. -/
def parseFlag? (s : String) : Option Bool :=
  if s = "true" then some true else if s = "false" then some false else none

/-- The settings that the environment makes. -/
def ofEnvironment (env : Environment) : Settings where
  maxFileSize := ((env "GOAST_SCAN_MAX_FILE_SIZE").bind (parseNatural? UInt64.size)).map .ofNat
  parallel := (env "GOAST_SCAN_PARALLEL").bind parseFlag?
  includeComments := (env "GOAST_TREE_INCLUDE_COMMENTS").bind parseFlag?
  maxNesting := ((env "GOAST_TREE_MAX_NESTING").bind (parseNatural? UInt32.size)).map .ofNat

/-- The text of a settings file, if it has one, and its path. -/
structure FileText where
  path : String
  /-- Missing if the file cannot be read as text. -/
  text : Option String
deriving DecidableEq, Repr

/-- The settings in a file. -/
def ofFile (file : FileText) : Except SettingsError Settings :=
  match file.text with
  | none => .error (.notFound file.path)
  | some text => read file.path text

/-- The settings of a project, given its file if there is one, the environment, and what the caller
sets if it sets anything. -/
def resolve (file : Option FileText) (env : Environment) (overrides : Option Settings) :
    Except SettingsError Settings := do
  let project ← match file with
    | none => pure unset
    | some f => ofFile f
  validate (ofLayers ([project, ofEnvironment env] ++ overrides.toList))

end Settings

end UniformTree
