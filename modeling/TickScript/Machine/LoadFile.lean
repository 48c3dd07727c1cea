import TickScript.FileTree
import TickScript.Machine.Program
import TickScript.Script.Binary

/-!
# Loading binaries from files
-/

namespace TickScript

/-- Why a file does not load. -/
inductive LoadFileError where
  | unreadable (path : Text) (error : FileError)
  | undecodable (path : Text) (error : BinaryError)
  | load (error : LoadError)
deriving DecidableEq, Repr

/-- The wording of the error. -/
def LoadFileError.message : LoadFileError → Text
  | unreadable path error => "reading " ++ path ++ ": " ++ error.message
  | undecodable path error => "decoding " ++ path ++ ": " ++ error.message
  | load error => error.message

/-- Loads the binary in a file. -/
def Program.loadFile (tree : FileTree) (path : Text) (p : Program) : Except LoadFileError Program :=
  match tree.read path with
  | .error error => .error (.unreadable path error)
  | .ok data =>
    match Script.decode data with
    | .error error => .error (.undecodable path error)
    | .ok s =>
      match p.load s with
      | (p, none) => .ok p
      | (_, some error) => .error (.load error)

end TickScript
