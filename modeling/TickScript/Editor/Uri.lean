import TickScript.Editor.Ipv6

/-!
# Document addresses

Editors name documents by address. An address with the scheme `file` stands for the path in it, with
its escapes resolved; any other one, and any that is malformed, stands for itself.
-/

namespace TickScript.Uri

open TickScript.Text

/-- A byte of a scheme behind its first letter. -/
def isSchemeByte (b : UInt8) : Bool :=
  isLetter b || isDigit b || b == 0x2B || b == 0x2D || b == 0x2E

/-- The scheme in front of an address in lower case, and what follows its colon. -/
def scheme? (t : Text) : Option (Text × Text) :=
  match t with
  | [] => none
  | b :: _ =>
    if !isLetter b then none
    else
      let name := t.takeWhile isSchemeByte
      match t.drop name.length with
      | 0x3A :: rest => some (lower name, rest)
      | _ => none

/-- The text with its escapes resolved; none when one is malformed. -/
def unescape : Text → Option Text
  | [] => some []
  | 0x25 :: a :: b :: t => do
    let high ← hexDigit? a
    let low ← hexDigit? b
    return (high * 16 + low).toUInt8 :: (← unescape t)
  | b :: t => if b == 0x25 then none else (unescape t).map (b :: ·)

/-- An ASCII byte that may stand in a host. -/
def isHostByte (b : UInt8) : Bool :=
  isLetter b || isDigit b || (Text.ofString "-_.~!$&'()*+,;=:[]<>\"").contains b

/-- The text of a part of a host; none when it is malformed. Bytes beyond ASCII stand for
themselves, and which bytes may be escaped is given; a percent sign always may. -/
def hostText? (escapable : UInt8 → Bool) : Text → Option Text
  | [] => some []
  | 0x25 :: a :: b :: t => do
    let code := ((← hexDigit? a) * 16 + (← hexDigit? b)).toUInt8
    guard (code == 0x25 || escapable code)
    return code :: (← hostText? escapable t)
  | b :: t => if isHostByte b || 0x80 ≤ b then (hostText? escapable t).map (b :: ·) else none

/-- The text of a name: only bytes beyond ASCII may be escaped. -/
def nameText? : Text → Option Text := hostText? (0x80 ≤ ·)

/-- The text of a zone: what could stand there itself may be escaped, and so may a blank. -/
def zoneText? : Text → Option Text := hostText? fun b => b == 0x20 || isHostByte b

/-- A host in front of its zone, and the zone with the escaped percent sign that introduces it. -/
def splitZone : Text → Text × Text
  | [] => ([], [])
  | 0x25 :: 0x32 :: 0x35 :: t => ([], 0x25 :: 0x32 :: 0x35 :: t)
  | b :: t => let (host, zone) := splitZone t; (b :: host, zone)

/-- Whether the text between brackets is a network address, which may have a zone that is not empty.
-/
def isLiteral (t : Text) : Bool :=
  let (host, zone) := splitZone t
  match nameText? host, zoneText? zone with
  | some host, some [] => Ipv6.isAddress host
  | some host, some (_ :: zone) => Ipv6.isAddress host && !zone.isEmpty
  | _, _ => false

/-- Whether a text is nothing, or a colon with a number behind it, which may be missing. -/
def isNumbering : Text → Bool
  | [] => true
  | b :: digits => b == 0x3A && digits.all isDigit

/-- Whether a host is well formed: a network address in brackets or a name, with or without a number
behind a colon. -/
def isHost (t : Text) : Bool :=
  match t with
  | 0x5B :: inner =>
    let rest := (inner.reverse.takeWhile (· != 0x5D)).reverse
    let literal := inner.take (inner.length - rest.length - 1)
    inner.contains 0x5D && !inner.contains 0x5B && isNumbering rest && isLiteral literal
  | t =>
    let number := (t.reverse.takeWhile (· != 0x3A)).reverse
    !t.contains 0x5B && (!t.contains 0x3A || number.all isDigit) && (nameText? t).isSome

/-- A byte that may stand in the name of a user. -/
def isUserByte (b : UInt8) : Bool :=
  isLetter b || isDigit b || (Text.ofString "-._:~!$&'()*+,;=%@").contains b

/-- Whether an authority is well formed: a host behind an optional user. -/
def isAuthority (t : Text) : Bool :=
  let host := (t.reverse.takeWhile (· != 0x40)).reverse
  let user := t.take (t.length - host.length - 1)
  isHost host && (!t.contains 0x40 || (user.all isUserByte && (unescape user).isSome))

/-- The path in what follows the scheme; none when it is malformed. -/
def pathOf? (rest : Text) : Option Text :=
  let rest := rest.takeWhile (· != 0x3F)
  match rest with
  | 0x2F :: 0x2F :: t =>
    let authority := t.takeWhile (· != 0x2F)
    if isAuthority authority then unescape (t.drop authority.length) else none
  | 0x2F :: _ => unescape rest
  | _ => some []

/-- The path that an address stands for. -/
def path (address : Text) : Text :=
  let body := address.takeWhile (· != 0x23)
  let fragment := address.drop (body.length + 1)
  let controls := body.any fun b => b < 0x20 || b == 0x7F
  match scheme? body with
  | some (scheme, rest) =>
    if scheme != Text.ofString "file" || controls || (unescape fragment).isNone then address
    else (pathOf? rest).getD address
  | none => address

end TickScript.Uri
