import TickScript.Text.Printable
import TickScript.Text.Utf8

/-!
# Quoted text

A quoted text stands between double quotes. Printable code points appear as they are, the quote and
the backslash behind a backslash, the usual control characters by their letter, and everything else
by number: `\xNN` for a control character or a stray byte, `\uNNNN` and `\UNNNNNNNN` for other code
points. `unquote` reads such a text back.
-/

namespace TickScript.Text

/-- The escape letter of a control character. -/
def controlLetter? (point : Nat) : Option UInt8 :=
  match point with
  | 0x07 => some (byte 'a')
  | 0x08 => some (byte 'b')
  | 0x0C => some (byte 'f')
  | 0x0A => some (byte 'n')
  | 0x0D => some (byte 'r')
  | 0x09 => some (byte 't')
  | 0x0B => some (byte 'v')
  | _ => none

/-- A rune as it appears between quotes; `bytes` are its own bytes. -/
def quoteRune (rune : Rune) (bytes : Text) : Text :=
  match rune with
  | .stray b => "\\x" ++ hexByte b
  | .scalar point =>
    if point == 0x22 || point == 0x5C then 0x5C :: bytes
    else if Printable.contains point then bytes
    else match controlLetter? point with
      | some letter => [0x5C, letter]
      | none =>
        if point < 0x20 || point == 0x7F then "\\x" ++ padZero 2 (hex point)
        else if point < 0x10000 then "\\u" ++ padZero 4 (hex point)
        else "\\U" ++ padZero 8 (hex point)

/-- The text between double quotes, with everything unprintable escaped. -/
def quote (t : Text) : Text :=
  0x22 :: (runesWithBytes t).flatMap (fun step => quoteRune step.1 step.2) ++ [0x22]

/-! ## Reading quoted text -/

/-- The value of a hexadecimal digit. -/
def hexDigit? (b : UInt8) : Option Nat :=
  if isDigit b then some (b.toNat - 0x30)
  else
    let l := lowerByte b
    if 0x61 ≤ l && l ≤ 0x66 then some (l.toNat - 0x57) else none

/-- The number that `count` hexadecimal digits spell, and what follows them. -/
def hexDigits? : (count : Nat) → (value : Nat) → Text → Option (Nat × Text)
  | 0, value, t => some (value, t)
  | _ + 1, _, [] => none
  | count + 1, value, b :: t => do
    let digit ← hexDigit? b
    hexDigits? count (value * 16 + digit) t

/-- The value of an octal digit. -/
def octalDigit? (b : UInt8) : Option Nat :=
  if 0x30 ≤ b && b ≤ 0x37 then some (b.toNat - 0x30) else none

/-- A code point that a text may hold: no surrogate and at most U+10FFFF. -/
def isScalar (point : Nat) : Bool :=
  point < 0xD800 || (0xDFFF < point && point ≤ 0x10FFFF)

/-- The bytes that the escape after a backslash stands for, and what follows it. `letter` is the
byte after the backslash. -/
def unescape? (letter : UInt8) (t : Text) : Option (Text × Text) :=
  match (Char.ofNat letter.toNat) with
  | 'a' => some ([0x07], t)
  | 'b' => some ([0x08], t)
  | 'f' => some ([0x0C], t)
  | 'n' => some ([0x0A], t)
  | 'r' => some ([0x0D], t)
  | 't' => some ([0x09], t)
  | 'v' => some ([0x0B], t)
  | '\\' => some ([0x5C], t)
  | '"' => some ([0x22], t)
  | 'x' => do
    let (value, rest) ← hexDigits? 2 0 t
    some ([value.toUInt8], rest)
  | 'u' => do
    let (value, rest) ← hexDigits? 4 0 t
    if isScalar value then some (ofPoint value, rest) else none
  | 'U' => do
    let (value, rest) ← hexDigits? 8 0 t
    if isScalar value then some (ofPoint value, rest) else none
  | _ => do
    let first ← octalDigit? letter
    match t with
    | b :: c :: rest => do
      let second ← octalDigit? b
      let third ← octalDigit? c
      let value := first * 64 + second * 8 + third
      if value ≤ 255 then some ([value.toUInt8], rest) else none
    | _ => none

/-- The content of a quoted text whose opening quote has been read. Stray bytes become U+FFFD. The
fuel bounds the number of runes. -/
def unquoteBody : (fuel : Nat) → Text → Option Text
  | 0, _ => none
  | _ + 1, [] => none
  | fuel + 1, b :: t =>
    if b == 0x22 then (if t.isEmpty then some [] else none)
    else if b == 0x0A then none
    else if b == 0x5C then
      match t with
      | [] => none
      | letter :: rest => do
        let (bytes, rest) ← unescape? letter rest
        let tail ← unquoteBody fuel rest
        some (bytes ++ tail)
    else do
      let step := firstRune b t
      let tail ← unquoteBody fuel (t.drop step.2)
      match step.1 with
      | .scalar _ => some (b :: t.take step.2 ++ tail)
      | .stray _ => some (ofPoint replacement ++ tail)

/-- The content of a text in double quotes; `none` when the text is not one quoted text. -/
def unquote (t : Text) : Option Text :=
  match t with
  | 0x22 :: body => unquoteBody (body.length + 1) body
  | _ => none

end TickScript.Text
