import TickScript.Number.Integer
import TickScript.Text.Quoted

/-!
# Flags of a command

A flag is written with one or two dashes; a value follows after an equals sign or as the next
argument, and a switch needs none. Flags end at the first argument that is no flag or behind a bare
`--`. The first fault ends the reading.
-/

namespace TickScript

/-- What a flag takes. -/
inductive FlagKind where
  | switch
  | text
  | whole
  | duration
deriving DecidableEq, Repr

/-- A flag that a command knows. -/
structure Flag where
  name : Text
  kind : FlagKind
  /-- What the help calls the value; by default the kind of value. -/
  label : Text := []
  help : Text
deriving DecidableEq, Repr

/-- The value of a flag. -/
inductive FlagValue where
  | switch (on : Bool)
  | text (value : Text)
  | whole (value : Int)
  /-- A number of nanoseconds. -/
  | duration (value : Int)
deriving DecidableEq, Repr

/-- Why arguments cannot be read. -/
inductive FlagError where
  /-- The help was asked for, and the command has no flag of its own for it. -/
  | helpWanted
  | badForm (argument : Text)
  | unknown (name : Text)
  | badSwitch (value name : Text)
  | noValue (name : Text)
  | badValue (value name : Text)
  | outOfRange (value name : Text)
deriving DecidableEq, Repr

/-- The wording of a flag error; the help has none. -/
def FlagError.message? : FlagError → Option Text
  | helpWanted => none
  | badForm argument => some ("bad flag syntax: " ++ argument)
  | unknown name => some ("flag provided but not defined: -" ++ name)
  | badSwitch value name =>
    some ("invalid boolean value " ++ Text.quote value ++ " for -" ++ name ++ ": parse error")
  | noValue name => some ("flag needs an argument: -" ++ name)
  | badValue value name =>
    some ("invalid value " ++ Text.quote value ++ " for flag -" ++ name ++ ": parse error")
  | outOfRange value name =>
    some ("invalid value " ++ Text.quote value ++ " for flag -" ++ name ++ ": value out of range")

namespace Flag

/-! ## Values -/

/-- A truth value as a word. -/
def readSwitch? (t : Text) : Option Bool :=
  if (["1", "t", "T", "TRUE", "true", "True"] : List Text).contains t then some true
  else if (["0", "f", "F", "FALSE", "false", "False"] : List Text).contains t then some false
  else none

/-- The units of durations in nanoseconds; the micro sign has two code points. -/
def units : List (Text × Nat) :=
  [("ns", 1), ("us", 1000), ("µs", 1000), ("μs", 1000), ("ms", 1000000), ("s", 1000000000),
    ("m", 60000000000), ("h", 3600000000000)]

/-- The number that digits spell. -/
def digitsValue (t : Text) : Nat := t.foldl (fun n b => n * 10 + (b.toNat - 0x30)) 0

/-- The nanoseconds of amounts with units, one after the other. -/
def readAmounts : (fuel : Nat) → Text → Option Nat
  | 0, _ => none
  | fuel + 1, t =>
    if t.isEmpty then some 0
    else do
      let whole := t.takeWhile Text.isDigit
      let t := t.drop whole.length
      let (fraction, t) := match t with
        | 0x2E :: rest => (rest.takeWhile Text.isDigit, rest.dropWhile Text.isDigit)
        | _ => ([], t)
      guard !(whole.isEmpty && fraction.isEmpty)
      let unit := t.takeWhile fun b => b != 0x2E && !Text.isDigit b
      let scale ← units.lookup unit
      let part := digitsValue fraction * scale / Nat.pow 10 fraction.length
      let amount := digitsValue whole * scale + part
      return amount + (← readAmounts fuel (t.drop unit.length))

/-- A duration in nanoseconds. -/
def readDuration? (t : Text) : Option Int := do
  let negative := t.head? == some 0x2D
  let body := Number.dropSign t
  if body == Text.ofString "0" then return 0
  guard !body.isEmpty
  let amount ← readAmounts (body.length + 1) body
  guard (amount ≤ 0x8000000000000000 - (if negative then 0 else 1))
  return if negative then -amount else amount

/-- The value of a flag that takes one. -/
def readValue (flag : Flag) (value : Text) : Except FlagError FlagValue :=
  match flag.kind with
  | .switch =>
    match readSwitch? value with
    | some on => .ok (.switch on)
    | none => .error (.badSwitch value flag.name)
  | .text => .ok (.text value)
  | .whole =>
    match Number.signedMarked 64 value with
    | .ok n => .ok (.whole n)
    | .error .malformed => .error (.badValue value flag.name)
    | .error (.outOfRange _) => .error (.outOfRange value flag.name)
  | .duration =>
    match readDuration? value with
    | some n => .ok (.duration n)
    | none => .error (.badValue value flag.name)

/-! ## Arguments -/

/-- The name in front of an equals sign, which is not the first byte, and the value behind it. -/
def splitName : Text → Text × Option Text
  | [] => ([], none)
  | b :: t =>
    let name := b :: t.takeWhile (· != 0x3D)
    match t.dropWhile (· != 0x3D) with
    | _ :: value => (name, some value)
    | [] => (name, none)

/-- The flag that an argument names: none when the flags end before it, and the rest of the argument
behind its dashes otherwise. -/
def body? (argument : Text) : Option Text :=
  match argument with
  | 0x2D :: 0x2D :: rest => some rest
  | 0x2D :: b :: rest => some (b :: rest)
  | _ => none

/-- Reads the flags in front of arguments. Answers the values in the order in which they were given,
and the arguments behind the flags. -/
def parse (flags : List Flag) : List Text → Except FlagError (List (Text × FlagValue) × List Text)
  | [] => .ok ([], [])
  | argument :: rest =>
    match body? argument with
    | none => .ok ([], argument :: rest)
    | some body =>
      if argument == [0x2D, 0x2D] then .ok ([], rest)
      else if body.isEmpty || body.head? == some 0x2D || body.head? == some 0x3D then
        .error (.badForm argument)
      else
        let (name, value?) := splitName body
        match flags.find? (·.name == name) with
        | none =>
          if name == Text.ofString "help" || name == Text.ofString "h" then .error .helpWanted
          else .error (.unknown name)
        | some flag =>
          if flag.kind = .switch then do
            let value ← flag.readValue (value?.getD "true")
            let (more, rest) ← parse flags rest
            return ((name, value) :: more, rest)
          else match value?, rest with
            | some value, rest => do
              let value ← flag.readValue value
              let (more, rest) ← parse flags rest
              return ((name, value) :: more, rest)
            | none, value :: rest => do
              let value ← flag.readValue value
              let (more, rest) ← parse flags rest
              return ((name, value) :: more, rest)
            | none, [] => .error (.noValue name)

/-- The last value that was given under one of some names. -/
def last? (given : List (Text × FlagValue)) (names : List Text) : Option FlagValue :=
  (given.reverse.find? fun entry => names.contains entry.1).map (·.2)

/-- Whether a switch was set last. -/
def isOn (given : List (Text × FlagValue)) (names : List Text) : Bool :=
  last? given names == some (.switch true)

/-- The text that was given last; empty by default. -/
def textOf (given : List (Text × FlagValue)) (names : List Text) : Text :=
  match last? given names with
  | some (.text value) => value
  | _ => []

/-- The number that was given last; zero by default. -/
def wholeOf (given : List (Text × FlagValue)) (names : List Text) : Int :=
  match last? given names with
  | some (.whole value) => value
  | some (.duration value) => value
  | _ => 0

/-! ## Help -/

/-- What the help calls the value of a flag. -/
def valueLabel (flag : Flag) : Text :=
  if !flag.label.isEmpty then flag.label
  else match flag.kind with
    | .switch => []
    | .text => "string"
    | .whole => "int"
    | .duration => "duration"

/-- The help on one flag. A flag of one letter without a value fits on one line. -/
def describe (flag : Flag) : Text :=
  let label := flag.valueLabel
  let head : Text := "  -" ++ flag.name ++ (if label.isEmpty then [] else 0x20 :: label)
  head ++ (if head.length ≤ 4 then ("\t" : Text) else "\n    \t") ++ flag.help ++ "\n"

/-- The help on flags in order of their names. -/
def describeAll (flags : List Flag) : Text :=
  ((flags.mergeSort fun a b => Text.le a.name b.name).map describe).flatten

end Flag

end TickScript
