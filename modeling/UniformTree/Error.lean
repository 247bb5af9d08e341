/-!
# Errors

What can go wrong, each with its cause as data. `message` is the wording of an error and `code` is
a word for it that does not change with the wording.
-/

namespace UniformTree

/-- Why the file system refused something. -/
inductive FileFailure where
  /-- There is nothing of this name. -/
  | notFound
  /-- Something on the way is not a directory. -/
  | notDirectory
  /-- A directory stands where a file is needed. -/
  | isDirectory
  | other (text : String)
deriving DecidableEq, Repr

namespace FileFailure

/-- The wording of a failure. -/
def message : FileFailure → String
  | notFound => "No such file or directory (os error 2)"
  | notDirectory => "Not a directory (os error 20)"
  | isDirectory => "Is a directory (os error 21)"
  | other text => text

end FileFailure

/-- Why a file did not become a source tree. -/
inductive ParseError where
  /-- The source does not fit the grammar at this place. -/
  | misfit (path : String) (line column offset : UInt32) (text : String)
  | unreadable (path : String) (failure : FileFailure)
  /-- A node lies more than `limit` levels deep. -/
  | tooDeep (path : String) (line column limit : UInt32)
  | noGrammar (text : String)
  | noTree (path : String)
deriving DecidableEq, Repr

namespace ParseError

/-- The wording of an error. -/
def message : ParseError → String
  | misfit path line column _ text => s!"{path}:{line}:{column}: {text}"
  | unreadable path failure => s!"IO error reading {path}: {failure.message}"
  | tooDeep path line column limit =>
    s!"{path}:{line}:{column}: nesting deeper than {limit} levels"
  | noGrammar text => s!"Go grammar could not be loaded: {text}"
  | noTree path => s!"Parser produced no tree for {path}"

/-- The word for an error. -/
def code : ParseError → String
  | misfit .. => "SYNTAX_ERROR"
  | unreadable .. => "IO_ERROR"
  | tooDeep .. => "NESTING_TOO_DEEP"
  | noGrammar .. => "GRAMMAR_ERROR"
  | noTree .. => "PARSE_ERROR"

/-- The line and the column of an error that has a place in a source. -/
def position? : ParseError → Option (UInt32 × UInt32)
  | misfit _ line column _ _ | tooDeep _ line column _ => some (line, column)
  | unreadable .. | noGrammar .. | noTree .. => none

end ParseError

/-- Why the files of a directory were not listed. -/
inductive ScanError where
  | unreadable (path : String) (failure : FileFailure)
  | tooLarge (path : String) (size max : UInt64)
deriving DecidableEq, Repr

namespace ScanError

/-- The wording of an error. -/
def message : ScanError → String
  | unreadable path failure => s!"IO error scanning {path}: {failure.message}"
  | tooLarge path size max => s!"File too large: {path} ({size} bytes, max {max})"

/-- The word for an error. -/
def code : ScanError → String
  | unreadable .. => "IO_ERROR"
  | tooLarge .. => "FILE_TOO_LARGE"

end ScanError

/-- Why a directory has not the package that was asked for. -/
inductive PackageError where
  | noneIn (dir : String)
  | notFound (name dir : String)
deriving DecidableEq, Repr

namespace PackageError

/-- The wording of an error. -/
def message : PackageError → String
  | noneIn dir => s!"No packages found in {dir}"
  | notFound name dir => s!"Package {name} was not found in {dir}"

/-- The word for an error. -/
def code : PackageError → String
  | noneIn .. => "NO_PACKAGES"
  | notFound .. => "PACKAGE_NOT_FOUND"

end PackageError

/-- Why settings were not accepted. -/
inductive SettingsError where
  | notFound (path : String)
  /-- The text of the settings cannot be read, or they cannot be written as text. -/
  | unreadable (path text : String)
  | invalid (field text : String)
deriving DecidableEq, Repr

namespace SettingsError

/-- The wording of an error. -/
def message : SettingsError → String
  | notFound path => s!"Config file not found: {path}"
  | unreadable path text => s!"Config parse error in {path}: {text}"
  | invalid field text => s!"Config validation failed for {field}: {text}"

/-- The word for an error, the same for all of them. -/
def code (_ : SettingsError) : String := "CONFIG_ERROR"

end SettingsError

/-- Any of the errors. -/
inductive Error where
  | parse (error : ParseError)
  | scan (error : ScanError)
  | package (error : PackageError)
  | settings (error : SettingsError)
deriving DecidableEq, Repr

namespace Error

/-- The wording of an error. -/
def message : Error → String
  | parse e => "Parse error: " ++ e.message
  | scan e => "Scan error: " ++ e.message
  | package e => "Package error: " ++ e.message
  | settings e => "Configuration error: " ++ e.message

/-- The word for an error. -/
def code : Error → String
  | parse e => e.code
  | scan e => e.code
  | package e => e.code
  | settings e => e.code

/-- An error whose wording begins with the word for it. -/
def withCode (code message : String) : String := s!"[{code}] {message}"

end Error

end UniformTree
