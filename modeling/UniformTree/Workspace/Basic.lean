import UniformTree.Package.Grouping
import UniformTree.Settings.Layers
import UniformTree.Text.Lossy
import UniformTree.Workspace.Listing
/-!
# Workspaces

The files and the environment variables that parsing can see, and what is asked of them: the tree
of a file, the trees of the packages of a directory, and the settings of a project.
-/

namespace UniformTree

/-- Files and environment variables. -/
structure Workspace where
  root : Item
  bindings : List (String × String)
  distinct : root.Distinct
deriving Repr

namespace Workspace

/-- Nothing is there. -/
def empty : Workspace := ⟨Item.empty, [], Item.distinct_empty⟩

/-! ## Changes -/

/-- Change what stands at a path. -/
def alter (w : Workspace) (path : String) (change : Option Item → Option Item)
    (hchange : Item.KeepsDistinct change) : Workspace :=
  let place := (Item.parts path).foldl Item.step []
  { w with
    root := (Item.alter change place (some w.root)).getD Item.empty
    distinct := by
      cases hroot : Item.alter change place (some w.root) with
      | none => exact Item.distinct_empty
      | some i =>
        have hold : ∀ j ∈ some w.root, j.Distinct := fun j hj => Option.mem_some.1 hj ▸ w.distinct
        exact Item.keepsDistinct_alter hchange place _ hold i hroot }

/-- Write a file. Directories on the way are made. -/
def write (w : Workspace) (path : String) (c : Content) : Workspace :=
  w.alter path (fun _ => some (.file c)) fun _ _ _ hi => Option.mem_some.1 hi ▸ .file c

/-- Make a directory and those on the way to it, where they are not there. -/
def makeDirectory (w : Workspace) (path : String) : Workspace :=
  w.alter path (fun i => some (i.getD Item.empty)) fun x hx i hi => by
    cases x with
    | none => exact Option.mem_some.1 hi ▸ Item.distinct_empty
    | some j => exact Option.mem_some.1 hi ▸ hx j rfl

/-- Remove a file. -/
def remove (w : Workspace) (path : String) : Workspace :=
  w.alter path (fun _ => none) fun _ _ _ hi => nomatch hi

/-- Set an environment variable, or unset it. -/
def setVariable (w : Workspace) (name : String) (value : Option String) : Workspace :=
  { w with
    bindings := (value.map (name, ·)).toList ++ w.bindings.filter (·.1 != name) }

/-! ## Settings -/

/-- The environment. -/
def environment (w : Workspace) : Environment := fun name => w.bindings.lookup name

/-- The settings file of a project, if there is anything at its path. -/
def settingsFile? (w : Workspace) (project : String) : Option Settings.FileText :=
  let path := Item.join project Settings.fileName
  match w.root.find path with
  | .error _ => none
  | .ok (.directory _) => some ⟨path, none⟩
  | .ok (.file c) => some ⟨path, Text.ofBytes? c.bytes⟩

/-- The settings of a project. -/
def loadSettings (w : Workspace) (project : String) (overrides : Option Settings) :
    Except SettingsError Settings :=
  Settings.resolve (w.settingsFile? project) w.environment overrides

/-! ## Trees -/

/-- The uniform tree of a file. -/
def parseFile (w : Workspace) (settings : Settings) (path : String) : Except ParseError Tree :=
  match w.root.read path with
  | .error failure => .error (.unreadable path failure)
  | .ok c => c.uniform settings path

/-- The name and the uniform tree of a package. -/
def packageTree (settings : Settings) (p : Package) : String × Tree :=
  (p.name, (Node.package p).normalize settings.buildOptions)

/-- The packages in the source files of a directory, by ascending names. -/
def packagesOf (settings : Settings) (dir : String) (sources : List SourceFile) :
    Except Error (List (String × Tree)) :=
  if sources.isEmpty then .error (.package (.noneIn dir))
  else
    match SourceFile.parseAll settings sources with
    | .error e => .error (.parse e)
    | .ok files => .ok ((Package.ofAll files).map (packageTree settings))

/-- The packages in the files of a directory whose names end in a suffix. -/
def parseDirectory (w : Workspace) (settings : Settings) (dir suffix : String) :
    Except Error (List (String × Tree)) :=
  match SourceFile.list w.root dir suffix settings.fileSizeLimit with
  | .error e => .error (.scan e)
  | .ok sources => packagesOf settings dir sources

/-- One package of a directory. -/
def parsePackage (w : Workspace) (settings : Settings) (dir suffix name : String) :
    Except Error Tree :=
  match w.parseDirectory settings dir suffix with
  | .error e => .error e
  | .ok packages =>
    match packages.lookup name with
    | some t => .ok t
    | none => .error (.package (.notFound name dir))

end Workspace

end UniformTree
