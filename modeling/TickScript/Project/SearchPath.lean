import TickScript.Project.Error
import TickScript.Text.Utf8
import TickScript.Token.Scanner

/-!
# Where includes are looked up

Directories come from lists: a list separates its entries by colons, and a list file has one list on
each line, with blank lines and comments. Entries of a file are relative to the directory of the
file.
-/

namespace TickScript

/-- What a command sees of the world outside: a tree of files and two variables of the environment.
-/
structure Environment where
  tree : FileTree
  /-- A list of include directories. -/
  includeList : Text := []
  /-- The path of a file with include directories. -/
  includeConfig : Text := []
deriving DecidableEq, Repr

namespace SearchPath

/-- The number of bytes from which on a line of a list file cannot be read. -/
def lineLimit : Nat := 65536

/-- The entries of a list. -/
def entries (list : Text) : List Text := if list.isEmpty then [] else Text.splitOn 0x3A list

/-- The directories on one line of a list file. -/
def ofLine (base line : Text) : List Text :=
  let line := Text.trimBlanks (dropReturn line)
  if line.isEmpty || line.head? == some 0x23 then []
  else
    ((entries line).map Text.trimBlanks).filterMap fun p =>
      if p.isEmpty then none
      else if Path.isAbsolute p then some p
      else some (Path.join [base, p])

/-- The directories of a list file. -/
def read (tree : FileTree) (path : Text) : Except ProjectError (List Text) :=
  match tree.read path with
  | .error error =>
    if error.action = .open_ then .error (.file error) else .error (.unreadableList path error)
  | .ok content =>
    let lines := Text.splitOn 0x0A content
    if lines.any fun line => lineLimit ≤ line.length then .error (.longLine path)
    else .ok (lines.flatMap (ofLine (Path.directory path)))

/-- The directories that the environment names. -/
def ofEnvironment (env : Environment) : Except ProjectError (List Text) :=
  let listed := (entries env.includeList).filter (!·.isEmpty)
  if env.includeConfig.isEmpty then .ok listed
  else match read env.tree env.includeConfig with
    | .ok more => .ok (listed ++ more)
    | .error cause => .error (.includeConfig cause)

end SearchPath

end TickScript
