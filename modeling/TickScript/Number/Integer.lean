import TickScript.Text.Basic

/-!
# Integers from text

An integer is written in a fixed base, or with a base mark: `0x`, `0b` and `0o` for sixteen, two and
eight, and a bare leading zero for eight. A marked number may have underscores between its digits.
Reading fails at the first byte that is no digit of the base, or at the first digit that takes the
number out of range, whichever comes first.
-/

namespace TickScript.Number

open TickScript.Text

/-- Why a text is not a number of the wanted range. -/
inductive Fault where
  /-- The text does not spell a number. -/
  | malformed
  /-- The text spells a number out of range; the nearest bound of the range is kept. -/
  | outOfRange (bound : Int)
deriving DecidableEq, Repr

/-- The wording of a fault. -/
def Fault.message : Fault → Text
  | .malformed => "invalid syntax"
  | .outOfRange _ => "value out of range"

/-- The value of a digit, up to thirty-five for `z`. -/
def digit? (b : UInt8) : Option Nat :=
  if isDigit b then some (b.toNat - 0x30)
  else if isLetter b then some ((lowerByte b).toNat - 0x57)
  else none

/-- What the last byte of a number was, for the underscore rule. -/
inductive Trail where
  | start
  | digit
  | underscore
  | other
deriving DecidableEq

/-- Whether underscores stand between digits only, from a given point on. -/
def underscoresFrom (hexadecimal : Bool) : Trail → Text → Bool
  | trail, [] => trail != .underscore
  | trail, b :: t =>
    if isDigit b || (hexadecimal && 0x61 ≤ lowerByte b && lowerByte b ≤ 0x66) then
      underscoresFrom hexadecimal .digit t
    else if b == 0x5F then trail == .digit && underscoresFrom hexadecimal .underscore t
    else trail != .underscore && underscoresFrom hexadecimal .other t

/-- The text behind an optional sign. -/
def dropSign : Text → Text
  | 0x2D :: t => t
  | 0x2B :: t => t
  | t => t

/-- Whether every underscore stands between two digits, or between the base mark and a digit. -/
def underscoresOk (t : Text) : Bool :=
  match dropSign t with
  | 0x30 :: b :: rest =>
    let mark := lowerByte b
    if mark == byte 'b' || mark == byte 'o' || mark == byte 'x' then
      underscoresFrom (mark == byte 'x') .digit rest
    else underscoresFrom false .start (0x30 :: b :: rest)
  | rest => underscoresFrom false .start rest

/-- The number that the digits of `t` spell, read from the left. -/
def readDigits (base limit : Nat) (skipUnderscores : Bool) : Nat → Text → Except Fault Nat
  | value, [] => .ok value
  | value, b :: t =>
    if b == 0x5F && skipUnderscores then readDigits base limit skipUnderscores value t
    else match digit? b with
      | none => .error .malformed
      | some d =>
        if base ≤ d then .error .malformed
        else
          let next := value * base + d
          if limit < next then .error (.outOfRange limit)
          else readDigits base limit skipUnderscores next t

/-- The base of a number with a base mark, and its digits. -/
def markedBase : Text → Nat × Text
  | 0x30 :: b :: c :: t =>
    let mark := lowerByte b
    if mark == byte 'b' then (2, c :: t)
    else if mark == byte 'o' then (8, c :: t)
    else if mark == byte 'x' then (16, c :: t)
    else (8, b :: c :: t)
  | 0x30 :: t => (8, t)
  | t => (10, t)

/-- An unsigned number of `bits` bits with a base mark. -/
def unsignedMarked (bits : Nat) (t : Text) : Except Fault Nat := do
  if t.isEmpty then throw .malformed
  let (base, digits) := markedBase t
  let value ← readDigits base (Nat.pow 2 bits - 1) true 0 digits
  if digits.contains 0x5F && !underscoresOk t then throw .malformed
  return value

/-- An unsigned decimal number of `bits` bits. -/
def unsignedDecimal (bits : Nat) (t : Text) : Except Fault Nat := do
  if t.isEmpty then throw .malformed
  readDigits 10 (Nat.pow 2 bits - 1) false 0 t

/-- A signed number, given how its magnitude is read. -/
def signedBy (magnitude : Text → Except Fault Nat) (bits : Nat) (t : Text) : Except Fault Int :=
  let negative := t.head? == some 0x2D
  let half := Nat.pow 2 (bits - 1)
  let bounded (value : Nat) : Except Fault Int :=
    if negative then
      if half < value then .error (.outOfRange (-half)) else .ok (-value)
    else if half ≤ value then .error (.outOfRange (half - 1)) else .ok value
  match magnitude (dropSign t) with
  | .ok value => bounded value
  | .error (.outOfRange _) => bounded (Nat.pow 2 bits - 1)
  | .error .malformed => .error .malformed

/-- A signed decimal number of `bits` bits. -/
def signedDecimal (bits : Nat) (t : Text) : Except Fault Int :=
  signedBy (unsignedDecimal bits) bits t

/-- A signed number of `bits` bits with a base mark. -/
def signedMarked (bits : Nat) (t : Text) : Except Fault Int :=
  signedBy (unsignedMarked bits) bits t

/-- A signed decimal number, taking the nearest bound when out of range and zero when malformed. -/
def clampedDecimal (bits : Nat) (t : Text) : Int :=
  match signedDecimal bits t with
  | .ok value => value
  | .error (.outOfRange bound) => bound
  | .error .malformed => 0

end TickScript.Number
