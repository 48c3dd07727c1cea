import TickScript.Name
import TickScript.Number.Decimal

/-!
# Typed values

A value is a type tag with the bytes that represent it: 32-bit integers and floats, one byte for a
bool, a 64-bit handle for an object, a text with a closing NUL for a string. Any byte may appear as
a tag and any bytes as data, since values also come from binaries; the readings below are total. A
reading takes the missing bytes of short data for zero and ignores surplus ones.
-/

namespace TickScript

open TickScript.Number

/-- The type tag of a value. -/
structure VarType where
  tag : UInt8
deriving DecidableEq, Repr, Inhabited

namespace VarType

@[match_pattern] def void : VarType := ⟨0⟩
@[match_pattern] def object : VarType := ⟨1⟩
@[match_pattern] def string : VarType := ⟨2⟩
@[match_pattern] def float : VarType := ⟨3⟩
@[match_pattern] def bool : VarType := ⟨4⟩
@[match_pattern] def int : VarType := ⟨5⟩
@[match_pattern] def uint : VarType := ⟨6⟩

/-- What a word that names no type is taken for. -/
@[match_pattern] def invalid : VarType := ⟨255⟩

/-- The types that have a name. -/
def named : List (VarType × Text) :=
  [(void, "void"), (object, "object"), (string, "string"), (float, "float"), (bool, "bool"),
    (int, "int"), (uint, "uint")]

/-- Whether the tag is that of a type. -/
def isKnown (t : VarType) : Bool := t.tag ≤ 6

/-- The name of a type; an unknown tag shows its number. -/
def name (t : VarType) : Text :=
  match named.lookup t with
  | some name => name
  | none => "VarType(" ++ Text.ofNat t.tag.toNat ++ ")"

/-- The type that a word names when case is ignored. -/
def ofName (word : Text) : VarType :=
  match named.find? fun entry => Text.equalFold entry.2 word with
  | some entry => entry.1
  | none => invalid

/-- The number of data bytes; none for strings, whose length varies. -/
def size? : VarType → Option Nat
  | object => some 8
  | float => some 4
  | int => some 4
  | uint => some 4
  | bool => some 1
  | string => none
  | _ => some 0

/-- Whether arithmetic applies to the type. -/
def isNumeric : VarType → Bool
  | float => true
  | int => true
  | uint => true
  | bool => true
  | _ => false

end VarType

/-- A typed value. -/
structure Value where
  type : VarType
  data : Text
deriving DecidableEq, Repr, Inhabited

namespace Value

/-! ## Making values -/

/-- The value of a call that has no result. -/
def void : Value := ⟨.void, []⟩

/-- The low 32 bits of an integer, read as signed. -/
def ofInt (n : Int) : Value := ⟨.int, Text.littleEndian 4 (n % 0x100000000).toNat⟩

/-- The low 32 bits of an integer, read as unsigned. -/
def ofUint (n : Int) : Value := ⟨.uint, Text.littleEndian 4 (n % 0x100000000).toNat⟩

/-- A number rounded to the 32-bit format. -/
def ofReal (x : Number.Real) : Value := ⟨.float, Text.littleEndian 4 (x.toBits .single)⟩

/-- A truth value. -/
def ofBool (b : Bool) : Value := ⟨.bool, [if b then 1 else 0]⟩

/-- An object by its 64-bit handle. -/
def ofHandle (n : Int) : Value := ⟨.object, Text.littleEndian 8 (n % 0x10000000000000000).toNat⟩

/-- A text with its closing NUL. -/
def ofText (t : Text) : Value := ⟨.string, t ++ [0]⟩

/-- The value that a new variable of a type holds. -/
def zero : VarType → Value
  | .object => ofHandle Name.nullObject.toInt
  | .string => ofText []
  | .float => ofReal .zero
  | .bool => ofBool false
  | .int => ofInt 0
  | .uint => ofUint 0
  | _ => void

/-! ## Reading values -/

/-- The first eight data bytes as a number. -/
def raw (v : Value) : Nat := Text.ofLittleEndian (v.data.take 8)

/-- The text of a string value, up to its first NUL. -/
def stringText (v : Value) : Text := v.data.takeWhile (· != 0)

/-- The number that a float value holds. -/
def singleReal (v : Value) : Number.Real := Number.Real.ofBits .single (v.raw % 0x100000000)

/-- The value as an integer. A float loses its fraction, a string is read as a decimal number. -/
def toInt (v : Value) : Int :=
  match v.type with
  | .int => Int.bmod v.raw 0x100000000
  | .uint => v.raw % 0x100000000
  | .float => v.singleReal.truncate
  | .bool => v.raw % 256
  | .object => Int.bmod v.raw 0x10000000000000000
  | .string => clampedDecimal 64 v.stringText
  | _ => 0

/-- The value as a number of the 64-bit format. -/
def toReal (v : Value) : Number.Real :=
  match v.type with
  | .float => v.singleReal
  | .string => parseLenient .double v.stringText
  | .void => .zero
  | _ => (Number.Real.ofInt v.toInt).roundTo .double

/-- Whether the value counts as true: a number other than zero or a text that is not empty. -/
def toBool (v : Value) : Bool :=
  match v.type with
  | .float => !v.toReal.isZero
  | .string => !v.stringText.isEmpty
  | _ => v.toInt != 0

/-- The text of a string value, or the rendering of any other. -/
def toText (v : Value) : Text :=
  match v.type with
  | .string => v.stringText
  | .float => Number.render .single v.toReal
  | .bool => if v.toBool then "true" else "false"
  | .void => "void"
  | .object => "object(" ++ Text.ofInt v.toInt ++ ")"
  | _ => Text.ofInt v.toInt

/-- The value as another type. A value of that type already stays as it is, whatever its data. -/
def convert (t : VarType) (v : Value) : Value :=
  if v.type = t then v
  else match t with
    | .int => ofInt v.toInt
    | .uint => ofUint v.toInt
    | .float => ofReal v.toReal
    | .bool => ofBool v.toBool
    | .object => ofHandle v.toInt
    | .string => ofText v.toText
    | _ => void

end Value

end TickScript
