import TickScript.Text.Quoted

/-!
# Network addresses

An address of version six has eight groups of hexadecimal digits between colons. Two colons in a row
stand for the groups that are missing there, at least one, and may come once. The last two groups
may be written as four decimal numbers between points.
-/

namespace TickScript.Ipv6

open TickScript.Text

/-- Whether a text is one group. -/
def isGroup (t : Text) : Bool :=
  !t.isEmpty && t.length ≤ 4 && t.all fun b => (hexDigit? b).isSome

/-- Whether a text is a decimal number up to 255 without a leading zero. -/
def isOctet (t : Text) : Bool :=
  !t.isEmpty && t.length ≤ 3 && t.all isDigit && (t.length == 1 || t.head? != some 0x30)
    && t.foldl (fun n b => 10 * n + (b.toNat - 0x30)) 0 ≤ 255

/-- Whether a text is four decimal numbers between points. -/
def isDotted (t : Text) : Bool :=
  let numbers := splitOn 0x2E t
  numbers.length == 4 && numbers.all isOctet

/-- The parts of a text between its colons; none when it is empty. -/
def fields (t : Text) : List Text := if t.isEmpty then [] else splitOn 0x3A t

/-- The number of groups that fields at the end of an address stand for. -/
def width? : List Text → Option Nat
  | [] => some 0
  | [last] => if isGroup last then some 1 else if isDotted last then some 2 else none
  | field :: rest => if isGroup field then (width? rest).map (· + 1) else none

/-- The text in front of the first two colons in a row and the text behind them. -/
def gap? : Text → Option (Text × Text)
  | [] => none
  | 0x3A :: 0x3A :: t => some ([], t)
  | b :: t => (gap? t).map fun (before, behind) => (b :: before, behind)

/-- Whether a text is an address. -/
def isAddress (t : Text) : Bool :=
  match gap? t with
  | none => width? (fields t) == some 8
  | some (before, behind) =>
    match width? (fields behind) with
    | some width => (fields before).all isGroup && (fields before).length + width < 8
    | none => false

end TickScript.Ipv6
