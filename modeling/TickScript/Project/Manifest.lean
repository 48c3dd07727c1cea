import TickScript.Project.Error
import TickScript.Toml.Fields

/-!
# Project files

A manifest names a project, says what to compile and how to run it, and lists the projects that it
depends on. It is found in a directory or in the nearest one above. Paths in it are relative to its
directory. The reader of documents is a parameter of whatever loads a manifest.
-/

namespace TickScript

/-- The extension of source files that are found in source directories. -/
def sourceExtension : Text := ".bar"

/-- Where another project is. -/
structure Dependency where
  git : Text := []
  tag : Text := []
  path : Text := []
deriving DecidableEq, Repr, Inhabited

/-- A project. -/
structure Manifest where
  name : Text
  version : Text
  /-- Files to compile, or directories of such files. -/
  sources : List Text
  include_ : List Text
  output : Text
  strict : Bool
  library : Bool
  verbosity : Int
  /-- The function that is called. -/
  entry : Text
  /-- The number of instructions of a tick. -/
  budget : Int
  dependencies : Table Text Dependency
  /-- The directory of the project. -/
  dir : Text
deriving DecidableEq, Repr, Inhabited

namespace Manifest

/-- A dependency from its table. -/
def dependencyOf? (value : Toml) : Option Dependency := do
  let entries ← value.asEntries
  return {
    git := ← Toml.textField entries "git"
    tag := ← Toml.textField entries "tag"
    path := ← Toml.textField entries "path" }

/-- The dependencies that a document declares. -/
def dependenciesOf? (document : Toml.Entries) : Option (Table Text Dependency) := do
  let dependencies ← (Toml.openField document "dependencies").mapM fun (name, value) => do
    return (name, ← dependencyOf? value)
  return Table.ofList dependencies

/-- The output of a project that names none. -/
def defaultOutput (name : Text) (library : Bool) : Text :=
  name ++ (if library then (".lib" : Text) else ".bin")

/-- A manifest from a document, with defaults for what it leaves out. -/
def ofDocument? (dir : Text) (document : Toml.Entries) : Option Manifest := do
  let project ← Toml.tableField document "project"
  let build ← Toml.tableField document "build"
  let run ← Toml.tableField document "run"
  let dependencies ← dependenciesOf? document
  let name ← Toml.textField project "name"
  let sources ← Toml.textsField build "sources"
  let output ← Toml.textField build "output"
  let library ← Toml.boolField build "library"
  let entry ← Toml.textField run "entry"
  return {
    name
    version := ← Toml.textField project "version"
    sources := if sources.isEmpty then ["src"] else sources
    include_ := ← Toml.textsField build "include"
    output :=
      if output.isEmpty then
        defaultOutput (if name.isEmpty then Path.base dir else name) library
      else output
    strict := ← Toml.boolField build "strict"
    library
    verbosity := ← Toml.intField build "verbosity"
    entry := if entry.isEmpty then "main" else entry
    budget := ← Toml.intField run "budget"
    dependencies
    dir }

/-- Loads the manifest of a directory. -/
def load (toml : Toml.Reader) (tree : FileTree) (dir : Text) : Except ProjectError Manifest :=
  let path := Path.join [dir, manifestName]
  match tree.read path with
  | .error error => .error (.unreadableManifest path error)
  | .ok content =>
    match (toml content).bind (ofDocument? (tree.absolute dir)) with
    | some m => .ok m
    | none => .error (.malformed path)

/-- Loads the manifest of the nearest directory that has one. The fuel bounds the number of
directories. -/
def findFrom (toml : Toml.Reader) (tree : FileTree) :
    (fuel : Nat) → (dir : Text) → Except ProjectError (Option Manifest)
  | 0, _ => .ok none
  | fuel + 1, dir =>
    match tree.stat (Path.join [dir, manifestName]) with
    | .ok _ => (load toml tree dir).map some
    | .error _ =>
      let up := Path.directory dir
      if up == dir then .ok none else findFrom toml tree fuel up

/-- Loads the manifest of a directory or of the nearest one above that has one. -/
def find (toml : Toml.Reader) (tree : FileTree) (dir : Text) :
    Except ProjectError (Option Manifest) :=
  let start := tree.absolute dir
  findFrom toml tree (start.length + 1) start

/-- A path of the manifest, seen from its directory. -/
def resolve (m : Manifest) (path : Text) : Text :=
  if Path.isAbsolute path then path else Path.join [m.dir, path]

/-- The files of one source entry, in order of their paths. -/
def filesOf (tree : FileTree) (m : Manifest) (source : Text) : Except ProjectError (List Text) :=
  let path := m.resolve source
  match tree.stat path with
  | .error error => .error (.badSource source error)
  | .ok (.file _) => .ok [path]
  | .ok .directory =>
    .ok (((tree.walk path).filter fun file => Text.endsWith file sourceExtension).mergeSort Text.le)

/-- The source files in the order of their entries, each once. -/
def sourceFiles (tree : FileTree) (m : Manifest) : Except ProjectError (List Text) := do
  let found ← m.sources.mapM (m.filesOf tree)
  return found.flatten.foldl (fun files f => if files.contains f then files else files ++ [f]) []

/-- The include directories. -/
def includePaths (m : Manifest) : List Text := m.include_.map m.resolve

/-- Where the output goes. -/
def outputPath (m : Manifest) : Text := m.resolve m.output

/-- Where fetched dependencies are kept. -/
def depsDir (m : Manifest) : Text := Path.join [m.dir, ".baranium", "deps"]

/-- Where the state of the dependencies is recorded. -/
def lockPath (m : Manifest) : Text := Path.join [m.dir, ".baranium", "lock.toml"]

end Manifest

end TickScript
