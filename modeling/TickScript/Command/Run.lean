import TickScript.Command.Flag
import TickScript.Command.Outcome
import TickScript.Listing.Assembler
import TickScript.Listing.Printer
import TickScript.Machine.Run
import TickScript.Project.Manifest
import TickScript.Project.SearchPath
import TickScript.Script.Binary
import TickScript.Toml.Parser

/-!
# The run command

Loads binaries or listings into one program and calls a function of it. Arguments behind a `--` are
passed on: whole numbers, floats and truth values as such, anything else as a text. A whole number
that the function returns becomes the exit code.
-/

namespace TickScript.RunCommand

/-- Exit codes. -/
def exitOk : Int := 0
def exitLoad : Int := 1
def exitUsage : Int := 2
def exitKilled : Int := 3

/-- The flags of the command. -/
def flags : List Flag :=
  [{ name := "entry", kind := .text,
     help := "Function to call (default from manifest, else main)" },
    { name := "e", kind := .text, help := "Function to call (shorthand)" },
    { name := "budget", kind := .whole
      help := "Instructions per tick (default from manifest, else 256)" },
    { name := "timeout", kind := .duration, help := "Stop the script after this long" },
    { name := "dis", kind := .switch
      help := "Print the loaded program as an assembly listing and exit" },
    { name := "asm", kind := .switch, help := "Inputs are assembly listings, not binaries" },
    { name := "trace", kind := .switch, help := "Log every instruction" },
    { name := "verbose", kind := .switch, help := "Verbose output" },
    { name := "version", kind := .switch, help := "Print the version" }]

/-- The help of the command. -/
def usage : Text :=
  "Usage: barvm [options] files... [-- args...]\n\n"
    ++ ("Loads every file into one program and calls the entry function.\n" : Text)
    ++ "Arguments after -- are passed to it: integers, floats, true/false,\n"
    ++ "anything else as a string.\n\nOptions:\n" ++ Flag.describeAll flags

/-! ## Arguments -/

/-- The files in front of a `--` and the arguments behind it. -/
def splitArguments (arguments : List Text) : List Text × List Text :=
  let isFile (a : Text) : Bool := a != [0x2D, 0x2D]
  (arguments.takeWhile isFile, (arguments.dropWhile isFile).drop 1)

/-- An argument as a value. -/
def argumentValue (a : Text) : Value :=
  match Number.signedMarked 32 a with
  | .ok n => .ofInt n
  | .error _ =>
    match Number.parse .single a with
    | .ok x => .ofReal x
    | .error _ =>
      if a == Text.ofString "true" then .ofBool true
      else if a == Text.ofString "false" then .ofBool false
      else .ofText a

/-! ## Loading -/

/-- Why a file cannot be loaded. -/
inductive InputError where
  | file (error : FileError)
  | binary (path : Text) (error : BinaryError)
  | listing (path : Text) (error : Listing.AssembleError)
  | load (path : Text) (error : LoadError)

/-- The wording of an input error. -/
def InputError.message : InputError → Text
  | file error => error.message
  | binary path error => path ++ ": " ++ error.message
  | listing path (.grammar (.badCharacter place)) => place.render path ++ ": invalid input text"
  | listing path (.grammar (.badLexeme place)) => place.render path ++ ": unexpected token"
  | listing path (.complaint place complaint) => place.render path ++ ": " ++ complaint.message
  | load path error => path ++ ": " ++ error.message

/-- The script in a file and the names that it spells out. -/
def readScript (tree : FileTree) (isListing : Bool) (path : Text) :
    Except InputError (Script × Names) :=
  match tree.read path with
  | .error error => .error (.file error)
  | .ok data =>
    if isListing then (Listing.assemble data).mapError (.listing path)
    else match Script.decode data with
      | .error error => .error (.binary path error)
      | .ok s => .ok (s, [])

/-- Loads files into one program. Answers it with the scripts in order. -/
def loadAll (tree : FileTree) (isListing : Bool) :
    List Text → Program → Except InputError (Program × List Script)
  | [], p => .ok (p, [])
  | path :: rest, p => do
    let (s, names) ← readScript tree isListing path
    match p.load s with
    | (_, some error) => throw (.load path error)
    | (p, none) =>
      let (p, more) ← loadAll tree isListing rest (p.addNames names)
      return (p, s :: more)

/-! ## Running -/

/-- Prints its argument on a line. -/
def printNative : Native where
  arity := 1
  reply call := { answer := .done .void, printed := call.arguments.map Value.toText }

/-- Tells the ticks of the machine. -/
def ticksNative : Native where
  arity := 0
  reply call := { answer := .done (.ofUint call.ticks.toNat) }

/-- How long a tick is taken to last, in nanoseconds, for a time limit. -/
def tickDuration : Nat := 10000

/-- The number of instructions after which a run that has a time limit is over at the latest. -/
def instructionLimit : Nat := 1000000

/-- The number of ticks that a run may take; a time limit of zero or less is none, which leaves the
number to the caller. -/
def patience (timeout : Int) (m : Machine) (unlimited : Nat) : Nat :=
  if timeout ≤ 0 then unlimited
  else min (timeout.toNat / tickDuration + 1) (instructionLimit / m.tickLength + 1)

/-- The lines of a text each with a line end. -/
def showLines (lines : List Text) : Text := lines.flatMap fun line => line ++ [0x0A]

/-- The outcome of a call that has ended. -/
def conclude (tree : FileTree) (entry : Text) (ended : Except Machine.RunError Value)
    (m : Machine) :
    Outcome :=
  let printed := showLines m.printed.reverse
  match ended with
  | .error (.killed code) =>
    { Outcome.failure tree exitKilled (entry ++ ": " ++ code.message) with stdout := printed }
  | .error .cancelled =>
    { Outcome.failure tree exitKilled (entry ++ ": stopped: context deadline exceeded") with
      stdout := printed }
  | .error .idle =>
    { Outcome.failure tree exitKilled (entry ++ ": stopped: " ++ Machine.RunError.idle.message) with
      stdout := printed }
  | .ok result =>
    if result.type = .int || result.type = .uint then
      { exit := result.toInt, stdout := printed, tree }
    else if result.type = .void then { exit := exitOk, stdout := printed, tree }
    else { exit := exitOk, stdout := printed ++ showLines [result.toText], tree }

/-- The listings of scripts one after the other; what came before a failure is shown too. -/
def showListings (tree : FileTree) (names : Names) : List Script → (shown : Text) → Option Outcome
  | [], shown => some { exit := exitOk, stdout := shown, tree }
  | s :: rest, shown =>
    match Listing.print names s with
    | .ok listing => showListings tree names rest (shown ++ listing)
    | .error (.code .unaddressable) => none
    | .error error => some { Outcome.failure tree exitLoad error.message with stdout := shown }

/-- The function to call and the budget, from the flags or else from the project around the working
directory, if it has a proper manifest. -/
def entryAndBudget (tree : FileTree) (given : List (Text × FlagValue)) : Text × Int :=
  let entry := Flag.textOf given ["entry", "e"]
  let budget := Flag.wholeOf given ["budget"]
  match Manifest.find Toml.parse tree tree.cwd with
  | .ok (some m) =>
    (if entry.isEmpty then m.entry else entry, if budget = 0 then m.budget else budget)
  | _ => (if entry.isEmpty then "main" else entry, budget)

/-- Calls a function of a program. None when the machine meets the last address. -/
def callEntry (tree : FileTree) (p : Program) (entry : Text) (budget timeout : Int)
    (arguments : List Text) (unlimited : Nat) : Option Outcome :=
  let m := { Machine.ofProgram p with budget }
  let m := (m.register "print" printNative).register "ticks" ticksNative
  match m.call entry (arguments.map argumentValue) with
  | .error error => some (.failure tree exitUsage error.message)
  | .ok m =>
    match m.run (patience timeout m unlimited) with
    | .error _ => none
    | .ok (ended, m) => some (conclude tree entry ended m)

/-- Runs the command. A run without a time limit takes at most `unlimited` ticks. None when code
leads to the last address, where a machine has no answer. -/
def run (env : Environment) (arguments : List Text) (unlimited : Nat) : Option Outcome :=
  let tree := env.tree
  match Flag.parse flags arguments with
  | .error error =>
    match error.message? with
    | none => some { exit := exitOk, stderr := usage, tree }
    | some message => some { exit := exitUsage, stderr := message ++ "\n" ++ usage, tree }
  | .ok (given, rest) =>
    if Flag.isOn given ["version"] then some { exit := exitOk, stdout := "barvm 0.1.0\n", tree }
    else
      let (files, scriptArguments) := splitArguments rest
      if files.isEmpty then some { exit := exitUsage, stderr := usage, tree }
      else match loadAll tree (Flag.isOn given ["asm"]) files {} with
        | .error error => some (.failure tree exitLoad error.message)
        | .ok (p, scripts) =>
          if Flag.isOn given ["dis"] then showListings tree p.names scripts []
          else
            let (entry, budget) := entryAndBudget tree given
            callEntry tree p entry budget (Flag.wholeOf given ["timeout"]) scriptArguments unlimited

end TickScript.RunCommand
