import TickScript.Value

/-!
# The instruction set

Every instruction is one opcode byte followed by fixed-width little-endian operands; `SET` is the
one instruction with trailing bytes, as many as its last operand says. Encoder, decoder, disassembler
and assembler all read the layout off the table below. Two parts of the library state it once more
by themselves: the emitters of `CodeBuffer`, and the machine, which fetches what each operation takes.
-/

namespace TickScript

/-- The operations of the machine. -/
inductive Opcode where
  /-- Does nothing. -/
  | nop
  /-- Clears the compare flag. -/
  | clearFlag
  /-- Sets the compare flag. -/
  | setFlag
  /-- Clears the compare value. -/
  | clearCompare
  /-- Saves the compare value. -/
  | saveCompare
  /-- Restores the compare value saved last. -/
  | restoreCompare
  /-- Pushes a variable. -/
  | pushVar
  /-- Pops into a variable. -/
  | popVar
  /-- Pushes one raw word. -/
  | push
  /-- Discards a value. -/
  | pop
  /-- Pushes the compare value as a bool. -/
  | pushCompare
  /-- Calls a function. -/
  | call
  /-- Returns to the caller. -/
  | ret
  /-- Jumps to an address. -/
  | jump
  /-- Jumps by a distance. -/
  | jumpBy
  /-- Jumps to an address when the compare value holds. -/
  | jumpIf
  /-- Jumps by a distance when the compare value holds. -/
  | jumpIfBy
  | mod
  | div
  | mul
  | sub
  | add
  | and
  | or
  | xor
  | shiftLeft
  | shiftRight
  /-- Compares two values. -/
  | compare
  /-- Combines the saved compare value with the current one. -/
  | combine
  /-- Allocates a local variable. -/
  | allocate
  /-- Frees a local variable. -/
  | free
  /-- Writes literal bytes into a variable. -/
  | set
  | instantiate
  | delete
  | attach
  | detach
  /-- Stops the machine. -/
  | kill
deriving DecidableEq, Repr, Inhabited

/-- The width of an operand. -/
inductive Width where
  | bits8
  | bits16
  | bits64
deriving DecidableEq, Repr

/-- The width in bytes. -/
def Width.bytes : Width → Nat
  | .bits8 => 1
  | .bits16 => 2
  | .bits64 => 8

/-- One fixed-width operand. -/
structure Operand where
  name : String
  width : Width
  signed : Bool
deriving DecidableEq, Repr

namespace Operand

/-- The id of a declaration. -/
def id : Operand := ⟨"id", .bits64, true⟩

/-- An address in the code. -/
def address : Operand := ⟨"addr", .bits64, false⟩

/-- A distance from the end of the instruction. -/
def distance : Operand := ⟨"off", .bits16, true⟩

/-- A raw word. -/
def word : Operand := ⟨"val", .bits64, false⟩

/-- A number of bytes. -/
def size : Operand := ⟨"size", .bits64, false⟩

end Operand

namespace Opcode

/-- The encoded byte. -/
def byte : Opcode → UInt8
  | nop => 0x00
  | clearFlag => 0x01
  | setFlag => 0x02
  | clearCompare => 0x03
  | saveCompare => 0x04
  | restoreCompare => 0x05
  | pushVar => 0x06
  | popVar => 0x07
  | push => 0x08
  | pop => 0x09
  | pushCompare => 0x0A
  | call => 0x0E
  | ret => 0x0F
  | jump => 0x10
  | jumpBy => 0x11
  | jumpIf => 0x12
  | jumpIfBy => 0x13
  | mod => 0x20
  | div => 0x21
  | mul => 0x22
  | sub => 0x23
  | add => 0x24
  | and => 0x25
  | or => 0x26
  | xor => 0x27
  | shiftLeft => 0x28
  | shiftRight => 0x29
  | compare => 0x30
  | combine => 0x31
  | allocate => 0x80
  | free => 0x81
  | set => 0x82
  | instantiate => 0xD0
  | delete => 0xD1
  | attach => 0xD2
  | detach => 0xD3
  | kill => 0xFF

/-- The operation that a byte encodes. -/
def ofByte? : UInt8 → Option Opcode
  | 0x00 => some nop
  | 0x01 => some clearFlag
  | 0x02 => some setFlag
  | 0x03 => some clearCompare
  | 0x04 => some saveCompare
  | 0x05 => some restoreCompare
  | 0x06 => some pushVar
  | 0x07 => some popVar
  | 0x08 => some push
  | 0x09 => some pop
  | 0x0A => some pushCompare
  | 0x0E => some call
  | 0x0F => some ret
  | 0x10 => some jump
  | 0x11 => some jumpBy
  | 0x12 => some jumpIf
  | 0x13 => some jumpIfBy
  | 0x20 => some mod
  | 0x21 => some div
  | 0x22 => some mul
  | 0x23 => some sub
  | 0x24 => some add
  | 0x25 => some and
  | 0x26 => some or
  | 0x27 => some xor
  | 0x28 => some shiftLeft
  | 0x29 => some shiftRight
  | 0x30 => some compare
  | 0x31 => some combine
  | 0x80 => some allocate
  | 0x81 => some free
  | 0x82 => some set
  | 0xD0 => some instantiate
  | 0xD1 => some delete
  | 0xD2 => some attach
  | 0xD3 => some detach
  | 0xFF => some kill
  | _ => none

/-- The mnemonic. -/
def mnemonic : Opcode → String
  | nop => "NOP"
  | clearFlag => "CCF"
  | setFlag => "SCF"
  | clearCompare => "CCV"
  | saveCompare => "PUSHCV"
  | restoreCompare => "POPCV"
  | pushVar => "PUSHVAR"
  | popVar => "POPVAR"
  | push => "PUSH"
  | pop => "POP"
  | pushCompare => "PUSHCMP"
  | call => "CALL"
  | ret => "RET"
  | jump => "JMP"
  | jumpBy => "JMPOFF"
  | jumpIf => "JMPC"
  | jumpIfBy => "JMPCOFF"
  | mod => "MOD"
  | div => "DIV"
  | mul => "MUL"
  | sub => "SUB"
  | add => "ADD"
  | and => "AND"
  | or => "OR"
  | xor => "XOR"
  | shiftLeft => "SHFTL"
  | shiftRight => "SHFTR"
  | compare => "CMP"
  | combine => "CMPC"
  | allocate => "MEM"
  | free => "FEM"
  | set => "SET"
  | instantiate => "INSTANTIATE"
  | delete => "DELETE"
  | attach => "ATTACH"
  | detach => "DETACH"
  | kill => "KILL"

/-- The operands in encoding order. -/
def operands : Opcode → List Operand
  | pushVar => [.id]
  | popVar => [.id]
  | push => [.word]
  | call => [.id]
  | jump => [.address]
  | jumpBy => [.distance]
  | jumpIf => [.address]
  | jumpIfBy => [.distance]
  | compare => [⟨"method", .bits8, false⟩]
  | combine => [⟨"combine", .bits8, false⟩]
  | allocate => [.size, ⟨"type", .bits8, false⟩, .id]
  | free => [.id]
  | set => [.id, .size]
  | kill => [⟨"code", .bits64, true⟩]
  | _ => []

/-- Whether as many raw bytes follow as the last operand says. -/
def hasData (op : Opcode) : Bool := op == set

/-- The number of operand bytes. -/
def operandBytes (op : Opcode) : Nat := op.operands.foldr (fun o n => o.width.bytes + n) 0

/-- All operations, by ascending byte. -/
def all : List Opcode :=
  [nop, clearFlag, setFlag, clearCompare, saveCompare, restoreCompare, pushVar, popVar, push, pop,
    pushCompare, call, ret, jump, jumpBy, jumpIf, jumpIfBy, mod, div, mul, sub, add, and, or, xor,
    shiftLeft, shiftRight, compare, combine, allocate, free, set, instantiate, delete, attach,
    detach, kill]

/-- The operation with a mnemonic, which is written in upper case. -/
def ofMnemonic? (word : Text) : Option Opcode :=
  all.find? fun op => Text.ofString op.mnemonic == word

/-- Whether the operation is a jump. -/
def isJump : Opcode → Bool
  | jump => true
  | jumpBy => true
  | jumpIf => true
  | jumpIfBy => true
  | _ => false

/-- Whether the operation jumps by a distance. -/
def isRelative : Opcode → Bool
  | jumpBy => true
  | jumpIfBy => true
  | _ => false

/-- Whether the jump depends on the compare value. -/
def isConditional : Opcode → Bool
  | jumpIf => true
  | jumpIfBy => true
  | _ => false

/-- Whether the operation combines two values into one. -/
def isArithmetic : Opcode → Bool
  | mod => true
  | div => true
  | mul => true
  | sub => true
  | add => true
  | and => true
  | or => true
  | xor => true
  | shiftLeft => true
  | shiftRight => true
  | _ => false

/-- The name of any byte in the place of an opcode. -/
def nameOfByte (b : UInt8) : Text :=
  match ofByte? b with
  | some op => op.mnemonic
  | none => "UNKNOWN(0x" ++ Text.hexPadded 2 b.toNat ++ ")"

@[simp] theorem ofByte?_byte (op : Opcode) : ofByte? op.byte = some op := by
  cases op <;> rfl

theorem mem_all (op : Opcode) : op ∈ all := by
  cases op <;> decide

end Opcode

/-! ## Operands with names of their own -/

/-- The relations that a comparison can ask for. -/
inductive Relation where
  | equal
  | notEqual
  | less
  | lessEqual
  | greater
  | greaterEqual
deriving DecidableEq, Repr

namespace Relation

/-- The relations by their encoded byte. -/
def all : List Relation := [equal, notEqual, less, lessEqual, greater, greaterEqual]

/-- The encoded byte. -/
def byte : Relation → UInt8
  | equal => 0
  | notEqual => 1
  | less => 2
  | lessEqual => 3
  | greater => 4
  | greaterEqual => 5

/-- The relation that a byte encodes. -/
def ofByte? (b : UInt8) : Option Relation := all[b.toNat]?

/-- The name in listings. -/
def mnemonic : Relation → String
  | equal => "EQ"
  | notEqual => "NEQ"
  | less => "LT"
  | lessEqual => "LEQ"
  | greater => "GT"
  | greaterEqual => "GEQ"

/-- The name of any byte in the place of a relation. -/
def nameOfByte (b : UInt8) : Text :=
  match ofByte? b with
  | some r => r.mnemonic
  | none => "CompareMethod(" ++ Text.ofNat b.toNat ++ ")"

end Relation

/-- The two ways to combine compare values. -/
inductive Connective where
  | and
  | or
deriving DecidableEq, Repr

namespace Connective

/-- The encoded byte. -/
def byte : Connective → UInt8
  | and => 0
  | or => 1

/-- The connective that a byte encodes. -/
def ofByte? : UInt8 → Option Connective
  | 0 => some and
  | 1 => some or
  | _ => none

/-- The name in listings. -/
def mnemonic : Connective → String
  | and => "AND"
  | or => "OR"

/-- The name of any byte in the place of a connective. -/
def nameOfByte (b : UInt8) : Text :=
  match ofByte? b with
  | some c => c.mnemonic
  | none => "CombineMethod(" ++ Text.ofNat b.toNat ++ ")"

end Connective

end TickScript
