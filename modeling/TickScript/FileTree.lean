import TickScript.Path
import TickScript.Table

/-!
# Trees of files

A tree holds files by absolute clean path, seen from a working directory. A path is followed element
by element: every element but the last must be a directory, and a `..` leads to the parent of a
directory that exists. No path holds a zero byte, and elements and whole paths have a greatest
length. Operations that change the tree answer the new one.
-/

namespace TickScript

/-- What stands in the way of an operation on a file. -/
inductive FileFault where
  | missing
  | isDirectory
  | notDirectory
  | exists_
  | invalid
  | tooLong
deriving DecidableEq, Repr

/-- The wording of a fault. -/
def FileFault.message : FileFault → Text
  | missing => "no such file or directory"
  | isDirectory => "is a directory"
  | notDirectory => "not a directory"
  | exists_ => "file exists"
  | invalid => "invalid argument"
  | tooLong => "file name too long"

/-- What was to be done with a file. -/
inductive FileAction where
  | open_
  | read
  | stat
  | mkdir
deriving DecidableEq, Repr

/-- The name of an action. -/
def FileAction.name : FileAction → Text
  | open_ => "open"
  | read => "read"
  | stat => "stat"
  | mkdir => "mkdir"

/-- An operation that failed at a path. -/
structure FileError where
  action : FileAction
  path : Text
  fault : FileFault
deriving DecidableEq, Repr

/-- The wording of a file error. -/
def FileError.message (e : FileError) : Text :=
  e.action.name ++ " " ++ e.path ++ ": " ++ e.fault.message

/-- What a path leads to. -/
inductive FileNode where
  | file (content : Text)
  | directory
deriving DecidableEq, Repr

/-- A finite tree of files. -/
structure FileTree where
  cwd : Text
  files : Table Text Text := []
  /-- Directories that are there even without files. -/
  directories : List Text := []
deriving DecidableEq, Repr

namespace FileTree

/-- The absolute form of a path. -/
def absolute (t : FileTree) (path : Text) : Text := Path.absolute t.cwd path

/-- Whether an absolute path lies below a directory. -/
def isBelow (directory path : Text) : Bool :=
  directory == [Path.slash] || Text.startsWith path (directory ++ [Path.slash])

/-- Whether an absolute path is a directory: the root, the working directory, or anything that holds
something. -/
def isDirectory (t : FileTree) (path : Text) : Bool :=
  path == [Path.slash] || path == t.cwd || isBelow path t.cwd || t.directories.contains path
    || t.directories.any (isBelow path) || t.files.any fun entry => isBelow path entry.1

/-- The length of the longest element of a path. -/
def maxElement : Nat := 255

/-- The length of the longest path. -/
def maxPath : Nat := 4095

/-- The absolute path that some elements lead to. The last one need not exist. -/
def descend (t : FileTree) : (current : Text) → List Text → Except FileFault Text
  | current, [] => .ok current
  | current, element :: rest =>
    if t.files.has current then .error .notDirectory
    else if !t.isDirectory current then .error .missing
    else if maxElement < element.length then .error .tooLong
    else t.descend (Path.join [current, element]) rest

/-- What is wrong with a path before it is followed. -/
def pathFault? (path : Text) : Option FileFault :=
  if path.contains 0 then some .invalid
  else if path.isEmpty then some .missing
  else if maxPath < path.length then some .tooLong
  else none

/-- The absolute path that a path leads to. -/
def locate (t : FileTree) (path : Text) : Except FileFault Text :=
  match pathFault? path with
  | some fault => .error fault
  | none =>
    t.descend (if Path.isAbsolute path then [Path.slash] else t.cwd) (Text.splitOn Path.slash path)

/-- What stands at a path. -/
def node (t : FileTree) (path : Text) : Except FileFault FileNode := do
  let full ← t.locate path
  match t.files.get? full with
  | some content => .ok (.file content)
  | none => if t.isDirectory full then .ok .directory else .error .missing

/-- Looks at a path. -/
def stat (t : FileTree) (path : Text) : Except FileError FileNode :=
  (t.node path).mapError fun fault => ⟨.stat, path, fault⟩

/-- Reads a file. -/
def read (t : FileTree) (path : Text) : Except FileError Text :=
  match t.node path with
  | .ok (.file content) => .ok content
  | .ok .directory => .error ⟨.read, path, .isDirectory⟩
  | .error fault => .error ⟨.open_, path, fault⟩

/-- The path without the separators at its end. -/
def bare (path : Text) : Text := (path.reverse.dropWhile (· == Path.slash)).reverse

/-- Where a file with a path can be written: in a directory that exists, and not in place of one. A
path that ends in a separator can only mean a directory, whatever its last element is. -/
def locateFile (t : FileTree) (path : Text) : Except FileFault Text := do
  if (bare path).length < path.length && (pathFault? path).isNone then
    let _ ← t.locate ((Path.splitLast (bare path)).1 ++ ".")
    throw .isDirectory
  let full ← t.locate path
  if t.isDirectory full then throw .isDirectory
  return full

/-- Writes a file into a directory that exists. -/
def write (t : FileTree) (path content : Text) : Except FileError FileTree :=
  match t.locateFile path with
  | .error fault => .error ⟨.open_, path, fault⟩
  | .ok full => .ok { t with files := t.files.set full content }

/-- Creates one directory. One that is there already is fine. -/
def makeDirectory (t : FileTree) (path : Text) : Except FileError FileTree :=
  let failed (fault : FileFault) : Except FileError FileTree := .error ⟨.mkdir, path, fault⟩
  match t.locate (bare path) with
  | .error fault => failed fault
  | .ok full =>
    if t.files.has full then failed .exists_
    else if t.isDirectory full then .ok t
    else .ok { t with directories := t.directories ++ [full] }

/-- The part of a path up to the separator before its last element. -/
def parentPart (path : Text) : Text :=
  ((path.reverse.dropWhile (· == Path.slash)).dropWhile (· != Path.slash)).reverse

/-- Steps that change a tree. What was changed before a failure stays. -/
abbrev Change := EStateM FileError FileTree

/-- Creates a directory and those above it. The fuel bounds the number of elements. -/
def makeDirectoriesFrom : (fuel : Nat) → Text → Change Unit
  | 0, _ => pure ()
  | fuel + 1, path => do
    match (← get).node path with
    | .ok .directory => pure ()
    | .ok (.file _) => throw ⟨.mkdir, path, .notDirectory⟩
    | .error _ =>
      let parent := parentPart path
      unless parent.isEmpty do makeDirectoriesFrom fuel parent
      match (← get).makeDirectory path with
      | .ok t => set t
      | .error error => throw error

/-- Creates a directory and those above it. -/
def makeDirectories (path : Text) : Change Unit := makeDirectoriesFrom (path.length + 1) path

/-- Whether one path comes before another when directories are walked in order of names. -/
def walkLe (p q : Text) : Bool :=
  let rec go : List Text → List Text → Bool
    | [], _ => true
    | _ :: _, [] => false
    | a :: p, b :: q => if a == b then go p q else Text.le a b
  go (Text.splitOn Path.slash p) (Text.splitOn Path.slash q)

/-- The files below a directory, directory by directory in order of names. -/
def walk (t : FileTree) (directory : Text) : List Text :=
  (t.files.keys.filter (isBelow (t.absolute directory))).mergeSort walkLe

end FileTree

end TickScript
