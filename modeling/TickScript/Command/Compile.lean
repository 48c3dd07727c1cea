import TickScript.Command.Flag
import TickScript.Command.Outcome
import TickScript.Disassembly
import TickScript.Project.Dependency
import TickScript.Project.SearchPath
import TickScript.Script.Binary
import TickScript.Toml.Parser
import TickScript.Unit

/-!
# The compile command

Compiles the files that are named, or else the project around the working directory. A project also
lends its include directories, those of its dependencies and its strictness to files that are named.
-/

namespace TickScript.CompileCommand

/-- Exit codes. -/
def exitOk : Int := 0
def exitDiagnostics : Int := 1
def exitUsage : Int := 2
def exitFile : Int := 3

/-- The flags of the command. -/
def flags : List Flag :=
  [{ name := "o", kind := .text, label := "path", help := "Write the binary to path" },
    { name := "output", kind := .text, label := "path", help := "Write the binary to path" },
    { name := "I", kind := .text, label := "file"
      help := "Read include directories from the path-list file" },
    { name := "include", kind := .text, label := "file"
      help := "Read include directories from the path-list file" },
    { name := "d", kind := .switch, help := "Dump parse trees and disassembly" },
    { name := "debug", kind := .switch, help := "Dump parse trees and disassembly" },
    { name := "h", kind := .switch, help := "Show this help" },
    { name := "help", kind := .switch, help := "Show this help" },
    { name := "v", kind := .switch, help := "Print the version" },
    { name := "version", kind := .switch, help := "Print the version" },
    { name := "library", kind := .switch, help := "Produce a library with an export table" },
    { name := "strict", kind := .switch, help := "Stop at the first error" }]

/-- The help of the command. -/
def usage : Text :=
  "Usage: barc [options] files...\n\nCompiles Baranium sources. Without files, builds the project\n"
    ++ ("described by the nearest " : Text) ++ manifestName ++ ".\n\nOptions:\n"
    ++ Flag.describeAll flags ++ "\nEnvironment:\n"
    ++ ("  " : Text) ++ includeVariable ++ "         extra include directories (path list)\n"
    ++ ("  " : Text) ++ includeConfigVariable ++ "  file listing extra include directories\n"

/-- A compilation that is ready to start. -/
structure Build where
  files : List Text
  output : Text
  options : CompileOptions

/-- Preparing a build, which may write the lock file even when it fails later. -/
abbrev Preparing := EStateM ProjectError FileTree

/-- The output of files that name none: beside the first one. -/
def defaultOutput (source : Text) (library : Bool) : Text :=
  let stem := source.take (source.length - (Path.fileExtension source).length)
  Manifest.defaultOutput stem library

/-- A step that only looks at the files. -/
def look {α : Type} (step : FileTree → Except ProjectError α) : Preparing α := do
  match step (← get) with
  | .ok a => return a
  | .error error => throw error

/-- Takes the sources, the output and the kind of output from a project. -/
def projectSources (m : Manifest) (b : Build) : Preparing Build := do
  let files ← look fun tree => m.sourceFiles tree
  return { b with
    files
    output := if b.output.isEmpty then m.outputPath else b.output
    options := { b.options with library := b.options.library || m.library } }

/-- What the project adds to a build. -/
def withManifest (m : Manifest) (b : Build) : Preparing Build := do
  let b ← if b.files.isEmpty then projectSources m b else pure b
  let (includes, tree) ← look fun tree => m.dependencyIncludes Toml.parse tree
  set tree
  return { b with
    options := { b.options with
      strict := b.options.strict || m.strict
      includePaths := b.options.includePaths ++ m.includePaths ++ includes } }

/-- The directories of the list file that a flag names. -/
def listedPaths (file : Text) (tree : FileTree) : Except ProjectError (List Text) :=
  if file.isEmpty then .ok [] else (SearchPath.read tree file).mapError .includeList

/-- The build that flags, project and environment describe. -/
def prepare (env : Environment) (given : List (Text × FlagValue)) (files : List Text) :
    Preparing Build := do
  let manifest? ← look fun tree => Manifest.find Toml.parse tree tree.cwd
  let includePaths ← look (listedPaths (Flag.textOf given ["I", "include"]))
  let b : Build := {
    files
    output := Flag.textOf given ["o", "output"]
    options := {
      strict := Flag.isOn given ["strict"]
      library := Flag.isOn given ["library"]
      includePaths } }
  let b ← match manifest? with
    | some m => withManifest m b
    | none => pure b
  let more ← look fun tree => SearchPath.ofEnvironment { env with tree }
  match b.files with
  | [] => throw .noInput
  | first :: _ =>
    return { b with
      options := { b.options with includePaths := b.options.includePaths ++ more }
      output := if b.output.isEmpty then defaultOutput first b.options.library else b.output }

/-- A diagnostic as the command shows it. -/
def showDiagnostic (d : Diagnostic) : Text :=
  let place : Text :=
    if d.file.isEmpty then "line " ++ Text.ofInt d.line else d.file ++ ":" ++ Text.ofInt d.line
  place ++ ": error: " ++ d.cause.message ++ "\n"

/-- A declaration as one line of the debug output. -/
def showDecl : Decl → Text
  | .field d => "field " ++ d.type.name ++ " " ++ d.name ++ "\n"
  | .var d => d.type.name ++ " " ++ d.name ++ "\n"
  | .function f => f.signature ++ "\n"

/-- The line that opens the declarations in the debug output. -/
def treeHeading : Text := "; parse tree\n"

/-- The line that opens the code in the debug output. -/
def codeHeading : Text := "; disassembly\n"

/-- The debug output of a compilation; none when its code cannot be walked. -/
def dump (c : Compiled) : Option Text := do
  let tree := treeHeading ++ (c.program.map showDecl).flatten
  match c.script? with
  | none => return tree
  | some s => return tree ++ codeHeading ++ (← s.disassemble c.names)

/-- Writes the output of a build. -/
def writeOutput (tree : FileTree) (b : Build) (s : Script) (stdout : Text) : Outcome :=
  let failed (tree : FileTree) (message : Text) : Outcome :=
    { Outcome.failure tree exitFile message with stdout }
  match s.encode with
  | .error error => failed tree ("encoding " ++ b.output ++ ": " ++ error.message)
  | .ok data =>
    match FileTree.makeDirectories (Path.directory b.output) tree with
    | .error error tree => failed tree error.message
    | .ok _ tree =>
      match tree.write b.output data with
      | .error error => failed tree error.message
      | .ok tree => { exit := exitOk, stdout, tree }

/-- Compiles a build. -/
def compileBuild (tree : FileTree) (b : Build) (debug : Bool) : Outcome :=
  match compileFiles (.tree tree) b.options b.files with
  | .error unreadable => .failure tree exitFile unreadable.message
  | .ok c =>
    let stdout := if debug then (dump c).getD [] else []
    match c.script? with
    | none =>
      let lines := (c.diagnostics.map showDiagnostic).flatten
      { exit := exitDiagnostics, stdout, tree,
        stderr := lines ++ Text.ofNat c.diagnostics.length ++ " errors, no output written\n" }
    | some s => writeOutput tree b s stdout

/-- Runs the command. -/
def run (env : Environment) (arguments : List Text) : Outcome :=
  match Flag.parse flags arguments with
  | .error error =>
    match error.message? with
    | none => { exit := exitOk, stderr := usage, tree := env.tree }
    | some message => { exit := exitUsage, stderr := message ++ "\n" ++ usage, tree := env.tree }
  | .ok (given, files) =>
    if Flag.isOn given ["h", "help"] then { exit := exitOk, stderr := usage, tree := env.tree }
    else if Flag.isOn given ["v", "version"] then
      { exit := exitOk, stdout := "barc 0.1.0\n", tree := env.tree }
    else match prepare env given files env.tree with
      | .error error tree => .failure tree exitUsage error.message
      | .ok b tree => compileBuild tree b (Flag.isOn given ["d", "debug"])

end TickScript.CompileCommand
