import TickScript.Instr

/-!
# Emitting code by hand

A `CodeBuffer` is a growing byte string. Each emitter writes the bytes of one shape of instruction out
by itself, without a look at the table that the decoder reads, and answers the offset at which they
stand. A relative jump counts from its own end and reaches at most 32768 bytes back or 32767 forward;
a longer one is refused and leaves the buffer as it was.
-/

namespace TickScript

/-- A jump distance that does not fit its operand. -/
structure JumpTooFar where
  distance : Int
deriving DecidableEq, Repr

/-- The wording of a refused jump. -/
def JumpTooFar.message (e : JumpTooFar) : Text :=
  "jump distance " ++ Text.ofInt e.distance ++ " exceeds 16-bit range"

/-- The number of bytes of a relative jump. -/
def relativeJumpSize : Nat := 3

/-- The instruction that jumps by a distance. -/
def Instr.relativeJump (op : Opcode) (distance : Int) : Except JumpTooFar Instr :=
  if distance < -0x8000 || 0x8000 ≤ distance then .error ⟨distance⟩
  else .ok (.withWord op (Int64.ofInt distance))

/-- Code under construction. The opcode of an emitter is any byte. -/
structure CodeBuffer where
  bytes : Text := []
deriving DecidableEq, Repr, Inhabited

namespace CodeBuffer

/-- The number of bytes so far. -/
def length (b : CodeBuffer) : Nat := b.bytes.length

/-- Appends bytes and answers where they start. -/
def append (b : CodeBuffer) (more : Text) : Nat × CodeBuffer := (b.length, ⟨b.bytes ++ more⟩)

/-- An opcode on its own. -/
def emit (b : CodeBuffer) (op : UInt8) : Nat × CodeBuffer := b.append [op]

/-- An opcode with a 64-bit operand. -/
def emitWord (b : CodeBuffer) (op : UInt8) (word : UInt64) : Nat × CodeBuffer :=
  b.append (op :: Text.littleEndian 8 word.toNat)

/-- An opcode with an 8-bit operand. -/
def emitByte (b : CodeBuffer) (op operand : UInt8) : Nat × CodeBuffer := b.append [op, operand]

/-- A push of one raw word. -/
def emitPush (b : CodeBuffer) (word : UInt64) : Nat × CodeBuffer :=
  b.emitWord Opcode.push.byte word

/-- A literal on the operand stack: pushes of its data words, of its size and of its type. -/
def emitValue (b : CodeBuffer) (type : VarType) (data : Text) : Nat × CodeBuffer :=
  let filled := (packWords data).foldl (fun b word => (b.emitPush word).2) b
  let sized := (filled.emitPush (UInt64.ofNat data.length)).2
  (b.length, (sized.emitPush (UInt64.ofNat type.tag.toNat)).2)

/-- An allocation: the size, the type and the id. -/
def emitAllocate (b : CodeBuffer) (size : UInt64) (type : VarType) (id : Id) : Nat × CodeBuffer :=
  b.append (Opcode.allocate.byte :: Text.littleEndian 8 size.toNat
    ++ type.tag :: Text.littleEndian 8 id.toUInt64.toNat)

/-- A write of literal bytes: the id, the number of bytes and the bytes. -/
def emitSet (b : CodeBuffer) (id : Id) (data : Text) : Nat × CodeBuffer :=
  b.append (Opcode.set.byte :: Text.littleEndian 8 id.toUInt64.toNat
    ++ Text.littleEndian 8 data.length ++ data)

/-- A kill with a code. -/
def emitKill (b : CodeBuffer) (code : Int64) : Nat × CodeBuffer :=
  b.emitWord Opcode.kill.byte code.toUInt64

/-- A relative jump by a distance, which is written in 16 bits. -/
def emitJump (b : CodeBuffer) (op : UInt8) (distance : Int) :
    Except JumpTooFar (Nat × CodeBuffer) :=
  if distance < -0x8000 || 0x8000 ≤ distance then .error ⟨distance⟩
  else .ok (b.append (op :: Text.littleEndian 2 (distance % 0x10000).toNat))

/-- A relative jump to an offset of this buffer. The distance to it is a 64-bit number. -/
def emitJumpTo (b : CodeBuffer) (op : UInt8) (target : Int) :
    Except JumpTooFar (Nat × CodeBuffer) :=
  b.emitJump op (Int64.ofInt (target - (b.length + relativeJumpSize))).toInt

/-- Appends the code of another buffer. -/
def splice (b scratch : CodeBuffer) : CodeBuffer := ⟨b.bytes ++ scratch.bytes⟩

end CodeBuffer

end TickScript
