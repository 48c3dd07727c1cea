import TickScript.Opcode

/-!
# Instructions as bytes

`Instr` is one instruction with its operand words and, for `SET`, its data. `encode` lays it out as
the opcode table says and `decodeHead` reads it back from the front of a byte string; neither looks
beyond the instruction, so code is decoded by walking over it.

Positions are those of a machine with 63-bit addresses: a data size that would take the position out
of that range is a fault of its own, told apart from code that merely ends too early.
-/

namespace TickScript

/-- One instruction: its operation, its operand words in order and its trailing bytes. -/
structure Instr where
  op : Opcode
  operands : List Int64
  data : Text
deriving DecidableEq, Repr, Inhabited

/-- Why no instruction stands at a position. -/
inductive DecodeError where
  /-- The position is past the end. -/
  | pastEnd (offset : Nat)
  /-- The byte at the position is no opcode. -/
  | invalidOpcode (byte : UInt8) (offset : Nat)
  /-- The code ends inside an operand. -/
  | cutOperand (op : Opcode) (operand : Operand) (offset : Nat)
  /-- The code ends inside the trailing bytes. -/
  | cutData (count : Int) (offset : Nat)
  /-- The position is negative, or the end of the trailing bytes is no address. -/
  | unaddressable
deriving DecidableEq, Repr

namespace DecodeError

/-- The wording of a decoding error. -/
def message : DecodeError → Text
  | pastEnd offset => "offset " ++ Text.ofNat offset ++ " past end of code"
  | invalidOpcode b offset =>
    "invalid opcode 0x" ++ Text.hexPadded 2 b.toNat ++ " at offset " ++ Text.ofNat offset
  | cutOperand op operand offset =>
    "unexpected end of code reading " ++ Text.ofString op.mnemonic ++ " operand "
      ++ Text.ofString operand.name ++ " at offset " ++ Text.ofNat offset
  | cutData count offset =>
    "unexpected end of code reading " ++ Text.ofInt count ++ " data bytes at offset "
      ++ Text.ofNat offset
  | unaddressable => "address out of range"

end DecodeError

namespace Instr

/-! ## Layout -/

/-- The bytes of an operand word. -/
def encodeOperand (operand : Operand) (word : Int64) : Text :=
  Text.littleEndian operand.width.bytes word.toUInt64.toNat

/-- The operand word that bytes of the operand's width spell. -/
def decodeOperand (operand : Operand) (bytes : Text) : Int64 :=
  let n := Text.ofLittleEndian bytes
  match operand.width, operand.signed with
  | .bits16, true => Int64.ofInt (Int.bmod n 0x10000)
  | _, _ => Int64.ofNat n

/-- The bytes of an instruction. -/
def encode (i : Instr) : Text :=
  i.op.byte :: ((i.op.operands.zip i.operands).flatMap fun pair => encodeOperand pair.1 pair.2)
    ++ i.data

/-- The number of bytes of an instruction. -/
def size (i : Instr) : Nat := 1 + i.op.operandBytes + i.data.length

/-- The operand words at the front of `bytes`, which stand at `offset`. -/
def decodeOperands (op : Opcode) :
    List Operand → (offset : Nat) → (bytes : Text) → Except DecodeError (List Int64 × Nat × Text)
  | [], offset, bytes => .ok ([], offset, bytes)
  | operand :: rest, offset, bytes => do
    let n := operand.width.bytes
    let window := bytes.take n
    if window.length < n then throw (.cutOperand op operand offset)
    let (words, stop, tail) ← decodeOperands op rest (offset + n) (bytes.drop n)
    return (decodeOperand operand window :: words, stop, tail)

/-- The instruction at the front of `bytes`, which stand at `offset`, and the bytes after it. -/
def decodeHead (offset : Nat) (bytes : Text) : Except DecodeError (Instr × Text) :=
  match bytes with
  | [] => .error (.pastEnd offset)
  | b :: bytes =>
    match Opcode.ofByte? b with
    | none => .error (.invalidOpcode b offset)
    | some op => do
      let (operands, stop, tail) ← decodeOperands op op.operands (offset + 1) bytes
      if op.hasData then
        let count := (operands.getLast?.getD 0).toInt
        if count < 0 then throw (.cutData count stop)
        if 0x8000000000000000 ≤ stop + count then throw .unaddressable
        let data := tail.take count.toNat
        if data.length < count.toNat then throw (.cutData count stop)
        return (⟨op, operands, data⟩, tail.drop count.toNat)
      else return (⟨op, operands, []⟩, tail)

/-- The instruction at a position of some code. -/
def decodeAt (code : Text) (offset : Int) : Except DecodeError Instr :=
  if offset < 0 then .error .unaddressable
  else (decodeHead offset.toNat (code.drop offset.toNat)).map (·.1)

/-- Where a jump that stands at `offset` leads; -1 for any other instruction. -/
def target (offset : Nat) (i : Instr) : Int :=
  let word := (i.operands.head?.getD 0).toInt
  if i.op.isRelative then offset + i.size + word
  else if i.op.isJump then word
  else -1

/-! ## One constructor per shape -/

/-- An instruction without operands. -/
def plain (op : Opcode) : Instr := ⟨op, [], []⟩

/-- An instruction with one operand word. -/
def withWord (op : Opcode) (word : Int64) : Instr := ⟨op, [word], []⟩

/-- Pushes a raw word. -/
def push (word : UInt64) : Instr := withWord .push word.toInt64

/-- Compares two values. -/
def compare (relation : Relation) : Instr := withWord .compare (Int64.ofNat relation.byte.toNat)

/-- Combines two compare values. -/
def combine (connective : Connective) : Instr :=
  withWord .combine (Int64.ofNat connective.byte.toNat)

/-- Allocates a local variable. -/
def allocate (size : UInt64) (type : VarType) (id : Id) : Instr :=
  ⟨.allocate, [size.toInt64, Int64.ofNat type.tag.toNat, id], []⟩

/-- Writes literal bytes into a variable. -/
def set (id : Id) (data : Text) : Instr := ⟨.set, [id, Int64.ofNat data.length], data⟩

/-- The bytes of a sequence of instructions. -/
def encodeAll (code : List Instr) : Text := code.flatMap encode

/-- The number of bytes of a sequence of instructions. -/
def sizeAll : List Instr → Nat
  | [] => 0
  | i :: rest => i.size + sizeAll rest

end Instr

/-! ## Data words -/

/-- The data of a value as 64-bit words. Empty data still takes one word. -/
def packWords (data : Text) : List UInt64 :=
  let rec chunks (fuel : Nat) (data : Text) : List UInt64 :=
    match fuel, data with
    | 0, _ => []
    | _, [] => []
    | fuel + 1, data =>
      UInt64.ofNat (Text.ofLittleEndian (data.take 8)) :: chunks fuel (data.drop 8)
  if data.isEmpty then [0] else chunks data.length data

/-- The number of words that `size` data bytes take. -/
def wordCount (size : Int) : Int := if size ≤ 0 then 1 else (size + 7) / 8

/-- The first `size` bytes of some words; none when the words do not hold that many. -/
def unpackWords? (words : List UInt64) (size : Nat) : Option Text :=
  let bytes := words.flatMap fun w => Text.littleEndian 8 w.toNat
  if bytes.length < size then none else some (bytes.take size)

/-- The instructions that leave a literal on the operand stack: data words, size, type. -/
def Instr.literal (type : VarType) (data : Text) : List Instr :=
  (packWords data).map push
    ++ [push (UInt64.ofNat data.length), push (UInt64.ofNat type.tag.toNat)]

end TickScript
