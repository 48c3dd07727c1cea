import TickScript.Text.Basic

/-!
# Code points of a byte text

A text is read as a sequence of *runes*: the scalar values of its well-formed UTF-8 sequences, and
each byte that belongs to no such sequence on its own. No byte is lost, so a text is the
concatenation of the bytes of its runes.
-/

namespace TickScript.Text

/-- One step through a byte text. -/
inductive Rune where
  /-- A well-formed sequence, by its code point. -/
  | scalar (point : Nat)
  /-- A byte that starts no well-formed sequence. -/
  | stray (b : UInt8)
deriving DecidableEq, Repr

/-- Whether a byte continues a sequence whose next byte must lie between `low` and `high`. -/
def continues (low high : UInt8) : Option UInt8 → Bool
  | some b => low ≤ b && b ≤ high
  | none => false

/-- The payload of a continuation byte. -/
def payload (b : Option UInt8) : Nat := (b.getD 0).toNat % 64

/-- The rune at the start of `b :: rest`, with the number of bytes of `rest` that it covers.
Overlong forms, surrogates and code points beyond U+10FFFF are not well formed. -/
def firstRune (b : UInt8) (rest : Text) : Rune × Nat :=
  let second := rest[0]?
  let third := rest[1]?
  let fourth := rest[2]?
  let tail := continues 0x80 0xBF
  if b < 0x80 then (.scalar b.toNat, 0)
  else if b < 0xC2 then (.stray b, 0)
  else if b < 0xE0 then
    if tail second then (.scalar (b.toNat % 32 * 64 + payload second), 1) else (.stray b, 0)
  else if b < 0xF0 then
    let low := if b == 0xE0 then 0xA0 else 0x80
    let high := if b == 0xED then 0x9F else 0xBF
    if continues low high second && tail third then
      (.scalar (b.toNat % 16 * 4096 + payload second * 64 + payload third), 2)
    else (.stray b, 0)
  else if b < 0xF5 then
    let low := if b == 0xF0 then 0x90 else 0x80
    let high := if b == 0xF4 then 0x8F else 0xBF
    if continues low high second && tail third && tail fourth then
      (.scalar
        (b.toNat % 8 * 262144 + payload second * 4096 + payload third * 64 + payload fourth), 3)
    else (.stray b, 0)
  else (.stray b, 0)

/-- The runes of a text in order, each with its bytes. -/
def runesWithBytes (t : Text) : List (Rune × Text) :=
  match t with
  | [] => []
  | b :: rest =>
    let step := firstRune b rest
    (step.1, b :: rest.take step.2) :: runesWithBytes (rest.drop step.2)
termination_by t.length
decreasing_by simp only [List.length_cons, List.length_drop]; omega

/-- The runes of a text in order. -/
def runes (t : Text) : List Rune := (runesWithBytes t).map (·.1)

/-- Whether every byte belongs to a well-formed sequence. -/
def isUtf8 (t : Text) : Bool :=
  (runes t).all fun
    | .scalar _ => true
    | .stray _ => false

/-- The UTF-8 bytes of a code point. -/
def ofPoint (point : Nat) : Text :=
  if point < 0x80 then [point.toUInt8]
  else if point < 0x800 then [(0xC0 + point / 64).toUInt8, (0x80 + point % 64).toUInt8]
  else if point < 0x10000 then
    [(0xE0 + point / 4096).toUInt8, (0x80 + point / 64 % 64).toUInt8, (0x80 + point % 64).toUInt8]
  else
    [(0xF0 + point / 262144).toUInt8, (0x80 + point / 4096 % 64).toUInt8,
      (0x80 + point / 64 % 64).toUInt8, (0x80 + point % 64).toUInt8]

/-- The code point that stands in for a stray byte. -/
def replacement : Nat := 0xFFFD

/-- The text with each stray byte replaced by U+FFFD. -/
def repaired (t : Text) : Text :=
  (runesWithBytes t).flatMap fun
    | (.scalar _, bytes) => bytes
    | (.stray _, _) => ofPoint replacement

/-- Whether a rune is the ASCII byte `b` when case is ignored. The long s (U+017F) is a form of `s`
and the Kelvin sign (U+212A) a form of `k`. -/
def Rune.foldsTo (b : UInt8) : Rune → Bool
  | .scalar point =>
    if point < 0x80 then lowerByte point.toUInt8 == lowerByte b
    else (point == 0x17F && lowerByte b == 0x73) || (point == 0x212A && lowerByte b == 0x6B)
  | .stray _ => false

/-- Whether `t` spells the ASCII word `word` when case is ignored. -/
def equalFold (word t : Text) : Bool :=
  let read := runes t
  read.length == word.length && (word.zip read).all fun pair => pair.2.foldsTo pair.1

/-- Whether a rune is a blank: the ASCII blanks, the next-line and no-break controls and the blanks
of the general punctuation. -/
def Rune.isBlank : Rune → Bool
  | .scalar point =>
    (0x09 ≤ point && point ≤ 0x0D) || (0x2000 ≤ point && point ≤ 0x200A)
      || [0x20, 0x85, 0xA0, 0x1680, 0x2028, 0x2029, 0x202F, 0x205F, 0x3000].contains point
  | .stray _ => false

/-- The text without the blanks at either end. -/
def trimBlanks (t : Text) : Text :=
  let blank (step : Rune × Text) : Bool := step.1.isBlank
  let inner := (((runesWithBytes t).dropWhile blank).reverse.dropWhile blank).reverse
  inner.flatMap (·.2)

end TickScript.Text
