import UniformTree.Workspace.Item
/-!
# Listing the sources of a directory

The files right in a directory whose names end in a suffix, in ascending order of their names. What
lies in directories below is not listed.
-/

namespace UniformTree

/-- A source file. -/
structure SourceFile where
  path : String
  name : String
  content : Content
deriving Repr

namespace SourceFile

/-- The number of bytes. -/
def size (f : SourceFile) : Nat := f.content.size

/-- The source file that an entry of a directory is, if its name has the suffix. -/
def fromItem? (dir suffix : String) : String × Item → Option SourceFile
  | (name, .file c) =>
    if suffix.toList.isSuffixOf name.toList then some ⟨Item.join dir name, name, c⟩ else none
  | (_, .directory _) => none

/-- A source file, if it is not too large. -/
def checkSize (max : UInt64) (f : SourceFile) : Except ScanError SourceFile :=
  if max.toNat < f.size then .error (.tooLarge f.path (UInt64.ofNat f.size) max) else .ok f

/-- Entries in ascending order of their names. -/
def sortEntries (entries : List (String × Item)) : List (String × Item) :=
  entries.mergeSort fun a b => a.1 ≤ b.1

/-- The source files among the entries of a directory. The first one that is too large is
refused. -/
def ofEntries (dir suffix : String) (max : UInt64) (entries : List (String × Item)) :
    Except ScanError (List SourceFile) :=
  ((sortEntries entries).filterMap (fromItem? dir suffix)).mapM (checkSize max)

/-- The source files of the directory at a path. A file in its place has none. -/
def list (root : Item) (dir suffix : String) (max : UInt64) : Except ScanError (List SourceFile) :=
  match root.find dir with
  | .error failure => .error (.unreadable dir failure)
  | .ok item => ofEntries dir suffix max item.entries

/-- The source trees of source files that are read together. The first one that has none is
refused. -/
def parseAll (settings : Settings) (files : List SourceFile) : Except ParseError (List File) :=
  (files.zip (Positions.start.bases (files.map size))).mapM fun (f, base) =>
    f.content.parse settings.nestingLimit f.path base

end SourceFile

end UniformTree
