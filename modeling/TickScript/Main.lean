import TickScript.Command.Compile
import TickScript.Command.Run

/-!
# The command line

The first argument picks the command, the others are its own: `barc` compiles, `barvm` runs. The
files that a command may look at are read into a tree, the command works on the tree, and the files
that it changed there are written. Nothing is decided here but what to read.
-/

namespace TickScript.CommandLine

/-- The bytes of a text. -/
def toBytes (t : Text) : ByteArray := ⟨t.toArray⟩

/-- The text of a string. -/
def toText (s : String) : Text := s.toUTF8.toList

/-- The name by which the system knows a path. -/
def systemPath (path : Text) : String := (String.fromUTF8? (toBytes (Text.repaired path))).getD ""

/-- Adds a file, or a directory with all that it holds, to a tree. What cannot be read is left out.
-/
partial def gather (tree : FileTree) (path : Text) : IO FileTree := do
  let file := (← IO.currentDir) / systemPath path
  if ← file.isDir then
    let entries ← try file.readDir catch _ => pure #[]
    let tree := { tree with directories := path :: tree.directories }
    entries.foldlM (fun tree entry => gather tree (Path.join [path, toText entry.fileName])) tree
  else
    try
      let content ← IO.FS.readBinFile file
      return { tree with files := tree.files.set path content.toList }
    catch _ => return tree

/-- Adds the things at some paths to a tree. -/
def gatherAll (tree : FileTree) (paths : List Text) : IO FileTree :=
  (paths.filter (!·.isEmpty)).foldlM (fun tree path => gather tree (tree.absolute path)) tree

/-- A directory and those above it, the nearest first. -/
def upward (directory : Text) : List Text :=
  let above := (List.range directory.length).filter fun n => directory[n]? == some Path.slash
  directory :: above.reverse.map fun n => Path.clean (directory.take (max n 1))

/-- The directories that belong to a project. -/
def projectPaths (m : Manifest) : List Text :=
  m.dir :: m.includePaths ++ m.sources.map m.resolve ++
    m.dependencies.map fun d => m.resolve d.2.path

/-- What a command with some arguments may look at. -/
def environment (arguments : List Text) : IO Environment := do
  let list ← IO.getEnv (systemPath includeVariable)
  let config ← IO.getEnv (systemPath includeConfigVariable)
  let cwd := toText (← IO.currentDir).toString
  let manifests := (upward cwd).map fun d => Path.join [d, manifestName]
  let tree ← gatherAll { cwd } (cwd :: manifests ++ arguments)
  let tree ← match Manifest.find Toml.parse tree cwd with
    | .ok (some m) => gatherAll tree (projectPaths m)
    | _ => pure tree
  let env : Environment :=
    { tree, includeList := toText (list.getD ""), includeConfig := toText (config.getD "") }
  let tree ← gatherAll tree (SearchPath.entries env.includeList ++ [env.includeConfig])
  let listed := (arguments.filterMap fun a => (SearchPath.read tree a).toOption).flatten
  let named := (SearchPath.ofEnvironment { env with tree }).toOption.getD []
  return { env with tree := ← gatherAll tree (listed ++ named) }

/-- Makes the files of the system those of a tree, as far as they differ from an earlier one. -/
def writeChanges (before after : FileTree) : IO Unit := do
  for directory in after.directories do
    unless before.directories.contains directory do
      IO.FS.createDirAll (systemPath directory)
  for (path, content) in after.files do
    unless before.files.get? path == some content do
      IO.FS.writeBinFile (systemPath path) (toBytes content)

/-- Shows what a command leaves behind. -/
def conclude (before : FileTree) (outcome : Outcome) : IO UInt32 := do
  writeChanges before outcome.tree
  (← IO.getStdout).write (toBytes outcome.stdout)
  (← IO.getStderr).write (toBytes outcome.stderr)
  return (outcome.exit % 256).toNat.toUInt32

/-- The greatest number of ticks that a run without a time limit takes. -/
def unlimitedTicks : Nat := 1000000000000000000

end TickScript.CommandLine

open TickScript CommandLine in
/-- Runs the command that the first argument names. -/
def main (arguments : List String) : IO UInt32 := do
  match arguments with
  | "barc" :: rest =>
    let env ← environment (rest.map toText)
    conclude env.tree (CompileCommand.run env (rest.map toText))
  | "barvm" :: rest =>
    let env ← environment (rest.map toText)
    match RunCommand.run env (rest.map toText) unlimitedTicks with
    | some outcome => conclude env.tree outcome
    | none =>
      (← IO.getStderr).putStrLn "error: code leads to the last address"
      return 2
  | _ =>
    (← IO.getStderr).putStrLn
      "usage: barc [flags] [file...] | barvm [flags] file... [-- argument...]"
    return 2
