/-!
# Byte text

Everything the language reads or writes is a sequence of bytes: lengths, columns and cuts count
bytes, and a text need not be valid UTF-8. `Text` is that sequence, kept as a list so that the
library's list lemmas apply to it directly. The module also holds the plain renderings of numbers
(decimal, signed, hexadecimal) and the little-endian words that the binary format is made of.
-/

namespace TickScript

/-- A byte string. -/
abbrev Text := List UInt8

namespace Text

/-- The UTF-8 bytes of a string. -/
def ofString (s : String) : Text :=
  s.toList.flatMap String.utf8EncodeChar

instance : Coe String Text := ⟨ofString⟩

/-- What holds of every byte of a text is decided byte by byte. -/
instance decidableForallMem (t : Text) (P : UInt8 → Prop) [DecidablePred P] :
    Decidable (∀ b ∈ t, P b) :=
  List.decidableBAll P t

/-- The byte of an ASCII character. -/
def byte (c : Char) : UInt8 := c.toNat.toUInt8

/-! ## Classes of bytes -/

/-- `0` to `9`. -/
def isDigit (b : UInt8) : Bool := 0x30 ≤ b && b ≤ 0x39

/-- `a` to `z`. -/
def isLower (b : UInt8) : Bool := 0x61 ≤ b && b ≤ 0x7A

/-- `A` to `Z`. -/
def isUpper (b : UInt8) : Bool := 0x41 ≤ b && b ≤ 0x5A

/-- An ASCII letter. -/
def isLetter (b : UInt8) : Bool := isLower b || isUpper b

/-- A letter, a digit or an underscore. -/
def isWord (b : UInt8) : Bool := isLetter b || isDigit b || b == 0x5F

/-- The lower-case form of an ASCII letter; any other byte stays. -/
def lowerByte (b : UInt8) : UInt8 := if isUpper b then b + 32 else b

/-- The upper-case form of an ASCII letter; any other byte stays. -/
def upperByte (b : UInt8) : UInt8 := if isLower b then b - 32 else b

/-- ASCII letters in lower case. -/
def lower (t : Text) : Text := t.map lowerByte

/-- ASCII letters in upper case. -/
def upper (t : Text) : Text := t.map upperByte

/-! ## Cutting and joining -/

/-- Whether `t` starts with `head`. -/
def startsWith (t head : Text) : Bool := head.isPrefixOf t

/-- What follows `head` in `t`, when `t` starts with it. -/
def dropHead? : Text → Text → Option Text
  | [], t => some t
  | _ :: _, [] => none
  | h :: head, b :: t => if h == b then dropHead? head t else none

/-- Whether `t` ends with `tail`. -/
def endsWith (t tail : Text) : Bool := tail.isSuffixOf t

/-- The parts with `sep` between neighbours. -/
def join (sep : Text) (parts : List Text) : Text := (parts.intersperse sep).flatten

/-- The parts of `t` between occurrences of the byte `sep`; always at least one part. -/
def splitOn (sep : UInt8) : Text → List Text
  | [] => [[]]
  | b :: t =>
    if b == sep then [] :: splitOn sep t
    else match splitOn sep t with
      | [] => [[b]]
      | part :: rest => (b :: part) :: rest

/-- Whether `part` occurs in `t`. -/
def containsPart (part : Text) : Text → Bool
  | [] => part.isEmpty
  | b :: t => startsWith (b :: t) part || containsPart part t

/-- Every occurrence of `old` replaced by `new`, from the left; `old` must not be empty. -/
def replaceAll (old new : Text) (t : Text) : Text :=
  match t with
  | [] => []
  | b :: rest =>
    if old.isEmpty then t
    else match old.isPrefixOf t with
      | true => new ++ replaceAll old new (rest.drop (old.length - 1))
      | false => b :: replaceAll old new rest
termination_by t.length

/-- Byte-wise order of texts. -/
def le : Text → Text → Bool
  | [], _ => true
  | _ :: _, [] => false
  | a :: s, b :: t => a < b || (a == b && le s t)

/-! ## Numbers as text -/

/-- Decimal digits of a natural number. -/
def ofNat (n : Nat) : Text := (Nat.toDigits 10 n).map byte

/-- Decimal digits of an integer, with a minus sign below zero. -/
def ofInt (n : Int) : Text := if n < 0 then 0x2D :: ofNat n.natAbs else ofNat n.natAbs

/-- Decimal digits of an integer, always signed. -/
def ofIntSigned (n : Int) : Text := if n < 0 then ofInt n else 0x2B :: ofInt n

/-- Hexadecimal digits in lower case. -/
def hex (n : Nat) : Text := (Nat.toDigits 16 n).map byte

/-- A run of zero digits. -/
def zeros (count : Nat) : Text := List.replicate count 0x30

/-- `t` with zeros in front, up to `width` bytes. -/
def padZero (width : Nat) (t : Text) : Text := zeros (width - t.length) ++ t

/-- Upper-case hexadecimal digits of an integer, filled with zeros to `width` places; the sign of a
negative number takes one of the places. -/
def hexPadded (width : Nat) (n : Int) : Text :=
  let digits := upper (hex n.natAbs)
  if n < 0 then 0x2D :: padZero (width - 1) digits else padZero width digits

/-- The two lower-case hexadecimal digits of a byte. -/
def hexByte (b : UInt8) : Text := padZero 2 (hex b.toNat)

/-! ## Little-endian words -/

/-- The low `count` bytes of `n`, least significant first. -/
def littleEndian : (count : Nat) → (n : Nat) → Text
  | 0, _ => []
  | count + 1, n => (n % 256).toUInt8 :: littleEndian count (n / 256)

/-- The number that a text spells, least significant byte first. -/
def ofLittleEndian : Text → Nat
  | [] => 0
  | b :: t => b.toNat + 256 * ofLittleEndian t

end Text

end TickScript
