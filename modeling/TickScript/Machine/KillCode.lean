import TickScript.Text.Basic

/-!
# Why a machine was killed

The machine stops itself with a negative code; every other code comes from the script or the host.
-/

namespace TickScript

/-- The code of a forced stop. -/
abbrev KillCode := Int64

namespace KillCode

def divisionByZero : KillCode := -1
def invalidOpcode : KillCode := -2
def stackUnderflow : KillCode := -3
def undefinedVariable : KillCode := -4
def undefinedFunction : KillCode := -5
def busFault : KillCode := -6
def nativeFailure : KillCode := -7

/-- The codes that the machine itself uses. -/
def named : List (KillCode × Text) :=
  [(divisionByZero, "division by zero"), (invalidOpcode, "invalid opcode"),
    (stackUnderflow, "stack underflow"), (undefinedVariable, "undefined variable"),
    (undefinedFunction, "undefined function"), (busFault, "bus fault"),
    (nativeFailure, "native call failed")]

/-- What a code means. -/
def describe (code : KillCode) : Text :=
  match named.lookup code with
  | some name => name
  | none => "killed by script (code " ++ Text.ofInt code.toInt ++ ")"

/-- The message of a run that was killed. -/
def message (code : KillCode) : Text := "vm killed: " ++ describe code

end KillCode

end TickScript
