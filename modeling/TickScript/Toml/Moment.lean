import TickScript.Text.Basic

/-!
# Dates and times

A date, a time of day, or a date and a time with or without an offset from universal time. Each part
has its full number of digits; the seconds may be left out, and only seconds have a fraction.
-/

namespace TickScript.Toml

open TickScript.Text

/-- A number of exactly `count` digits, and what follows. -/
def digits? (count : Nat) (t : Text) : Option (Nat × Text) :=
  let window := t.take count
  if window.length = count && window.all isDigit then
    some (window.foldl (fun n b => n * 10 + (b.toNat - 0x30)) 0, t.drop count)
  else none

/-- What follows a byte. -/
def after? (b : UInt8) : Text → Option Text
  | c :: t => if c == b then some t else none
  | [] => none

/-- The number of days of a month. -/
def daysIn (year month : Nat) : Nat :=
  if month = 2 then
    if year % 4 = 0 && (year % 100 != 0 || year % 400 = 0) then 29 else 28
  else if [4, 6, 9, 11].contains month then 30
  else 31

/-- What follows a date. -/
def dateEnd? (t : Text) : Option Text := do
  let (year, t) ← digits? 4 t
  let (month, t) ← digits? 2 (← after? 0x2D t)
  let (day, t) ← digits? 2 (← after? 0x2D t)
  guard (1 ≤ month && month ≤ 12 && 1 ≤ day && day ≤ daysIn year month)
  return t

/-- What follows a fraction, if there is one. -/
def fractionEnd (t : Text) : Text :=
  match t with
  | 0x2E :: b :: rest => if isDigit b then rest.dropWhile isDigit else t
  | _ => t

/-- What follows a time of day. -/
def timeEnd? (t : Text) : Option Text := do
  let (hour, t) ← digits? 2 t
  let (minute, t) ← digits? 2 (← after? 0x3A t)
  guard (hour ≤ 23 && minute ≤ 59)
  match t with
  | 0x3A :: rest =>
    let (second, t) ← digits? 2 rest
    guard (second ≤ 59)
    return fractionEnd t
  | _ => return t

/-- Whether a text is an offset from universal time. -/
def isOffset (t : Text) : Bool :=
  match t with
  | [] => false
  | sign :: rest =>
    if lowerByte sign == byte 'z' then rest.isEmpty
    else
      let read : Option Text := do
        let (hours, t) ← digits? 2 rest
        let (minutes, t) ← digits? 2 (← after? 0x3A t)
        guard (hours ≤ 24 && minutes ≤ 60)
        return t
      (sign == 0x2B || sign == 0x2D) && read == some []

/-- Whether a text is a date, a time or both. -/
def isMoment (t : Text) : Bool :=
  match dateEnd? t with
  | some [] => true
  | some (separator :: rest) =>
    (lowerByte separator == byte 't' || separator == 0x20) &&
      match timeEnd? rest with
      | some [] => true
      | some offset => isOffset offset
      | none => false
  | none => timeEnd? t == some []

end TickScript.Toml
