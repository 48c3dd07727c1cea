import TickScript.FileTree

/-!
# Outcomes of commands

A command writes to two streams, may change files and ends with a number.
-/

namespace TickScript

/-- What a command leaves behind. -/
structure Outcome where
  exit : Int
  stdout : Text := []
  stderr : Text := []
  tree : FileTree
deriving DecidableEq, Repr

namespace Outcome

/-- A failure with its message. -/
def failure (tree : FileTree) (exit : Int) (message : Text) : Outcome :=
  { exit, stderr := "error: " ++ message ++ "\n", tree }

end Outcome

end TickScript
