import TickScript.FileTree

/-!
# Where sources are read from

Sources come from a tree of files or from texts held in memory. The two differ in how they word a
failure, and a text in memory may be limited to a number of reads, after which reading it fails.
What has been read so far is kept by the reader as a history, so a store itself never changes.
-/

namespace TickScript

/-- A text held in memory. -/
structure MemoryFile where
  content : Text
  /-- How often the text can be read; zero for any number of times. -/
  limit : Nat := 0
deriving DecidableEq, Repr

/-- Texts by absolute path, seen from a working directory. -/
structure MemoryFiles where
  cwd : Text
  files : Table Text MemoryFile := []
deriving DecidableEq, Repr

/-- Where sources are read from. -/
inductive FileStore where
  | memory (files : MemoryFiles)
  | tree (files : FileTree)
deriving DecidableEq, Repr

/-- Why a path cannot be read. -/
inductive ReadFault where
  /-- No such text in memory. -/
  | unknown
  /-- A text in memory that has been read too often. -/
  | exhausted
  | file (error : FileError)
deriving DecidableEq, Repr

/-- The wording of a read fault. -/
def ReadFault.message : ReadFault → Text
  | unknown => "no such file"
  | exhausted => "read failed"
  | file error => error.message

namespace FileStore

/-- The working directory. -/
def cwd : FileStore → Text
  | memory m => m.cwd
  | tree t => t.cwd

/-- The number of files. -/
def size : FileStore → Nat
  | memory m => m.files.length
  | tree t => t.files.length

/-- The absolute form of a path. -/
def absolute (s : FileStore) (path : Text) : Text := Path.absolute s.cwd path

/-- Reads a file, given the absolute paths read before. -/
def read (s : FileStore) (history : List Text) (path : Text) : Except ReadFault Text :=
  match s with
  | memory m =>
    let full := Path.absolute m.cwd path
    match m.files.get? full with
    | none => .error .unknown
    | some file =>
      if file.limit != 0 && file.limit ≤ history.count full then .error .exhausted
      else .ok file.content
  | tree t => (t.read path).mapError .file

end FileStore

end TickScript
