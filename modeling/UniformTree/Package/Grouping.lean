import UniformTree.Ast.Basic
/-!
# Packages

Files that are read together are grouped by the package that they name. The groups are in ascending
order of the names, and the files of a group stay in the order in which they came.
-/

namespace UniformTree

/-- A package name and the files that name it. -/
abbrev FileGroup := String × List File

/-- The package of a name with these files, from the first one to the last one. -/
def Package.ofFiles (name : String) (files : List File) : Package :=
  ⟨Span.coverAll (files.map (·.span)), name, files⟩

namespace Package

/-- Put a file at the end of its group. -/
def addFile (file : File) : List FileGroup → List FileGroup
  | [] => [(file.name.name, [file])]
  | (name, files) :: groups =>
    if name = file.name.name then (name, files ++ [file]) :: groups
    else if file.name.name < name then (file.name.name, [file]) :: (name, files) :: groups
    else (name, files) :: addFile file groups

/-- The files in groups. -/
def group (files : List File) : List FileGroup := files.foldl (fun groups f => addFile f groups) []

/-- The packages of files. -/
def ofAll (files : List File) : List Package :=
  (group files).map fun (name, files) => ofFiles name files

end Package

end UniformTree
