import TickScript.Project.Manifest

/-!
# Lock files

A lock file records what each dependency was resolved to: one table for each, with the fields that
are not empty.
-/

namespace TickScript

/-- One recorded dependency. -/
structure LockedDependency where
  name : Text
  git : Text := []
  tag : Text := []
  commit : Text := []
  path : Text := []
deriving DecidableEq, Repr, Inhabited

/-- The recorded dependencies in order. -/
abbrev LockFile := List LockedDependency

namespace LockFile

/-- An entry from its table. -/
def entryOf? (entries : Toml.Entries) : Option LockedDependency := do
  return {
    name := ← Toml.textField entries "name"
    git := ← Toml.textField entries "git"
    tag := ← Toml.textField entries "tag"
    commit := ← Toml.textField entries "commit"
    path := ← Toml.textField entries "path" }

/-- A lock file from its document. -/
def ofDocument? (document : Toml.Entries) : Option LockFile :=
  Toml.tablesField entryOf? document "dep"

/-- Reads a lock file; none when it is not there. -/
def read (toml : Toml.Reader) (tree : FileTree) (path : Text) :
    Except ProjectError (Option LockFile) :=
  match tree.read path with
  | .error error => if error.fault = .missing then .ok none else .error (.file error)
  | .ok content =>
    match (toml content).bind ofDocument? with
    | some lock => .ok (some lock)
    | none => .error (.malformed path)

/-- The first entry with a name. -/
def find? (lock : LockFile) (name : Text) : Option LockedDependency :=
  List.find? (fun entry => entry.name == name) lock

/-! ## Writing -/

/-- A byte of a string, escaped where it cannot stand for itself. -/
def writeByte (b : UInt8) : Text :=
  if b == 0x22 then [0x5C, 0x22]
  else if b == 0x5C then [0x5C, 0x5C]
  else if b == 0x08 then "\\b"
  else if b == 0x09 then "\\t"
  else if b == 0x0A then "\\n"
  else if b == 0x0C then "\\f"
  else if b == 0x0D then "\\r"
  else if b < 0x20 || b == 0x7F then "\\u00" ++ Text.hexByte b
  else [b]

/-- A field with a string. -/
def writeField (name : String) (value : Text) : Text :=
  "  " ++ Text.ofString name ++ " = \"" ++ value.flatMap writeByte ++ "\"\n"

/-- A field, unless it is empty. -/
def writeOptional (name : String) (value : Text) : Text :=
  if value.isEmpty then [] else writeField name value

/-- One entry as a table. -/
def writeEntry (entry : LockedDependency) : Text :=
  "[[dep]]\n" ++ writeField "name" entry.name ++ writeOptional "git" entry.git
    ++ writeOptional "tag" entry.tag ++ writeOptional "commit" entry.commit
    ++ writeOptional "path" entry.path

/-- The text of a lock file. -/
def render (lock : LockFile) : Text :=
  "# Generated by barc. Do not edit.\n\n" ++ Text.join "\n" (lock.map writeEntry)

/-- Writes a lock file. -/
def write (tree : FileTree) (path : Text) (lock : LockFile) : Except FileError FileTree :=
  tree.write path (render lock)

end LockFile

end TickScript
