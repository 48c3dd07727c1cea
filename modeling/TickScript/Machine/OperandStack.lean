import TickScript.Instr

/-!
# The operand stack

A value on the stack takes its data words, then its size, then its type, so that the stack can be
read without knowing what was pushed. The stack is a list with the top word first, hence a value
lies in it in reverse. Single words can be pushed too, so what lies on top need not be a value.
-/

namespace TickScript

/-- The words of the stack, top first. -/
abbrev OperandStack := List UInt64

namespace OperandStack

/-- The greatest data size of a value that can be read back. -/
def maxValueSize : Nat := 0x100000

/-- The words of a value in the order in which they are pushed. -/
def words (v : Value) : List UInt64 :=
  packWords v.data ++ [UInt64.ofNat v.data.length, UInt64.ofNat v.type.tag.toNat]

/-- Pushes a value. -/
def push (v : Value) (s : OperandStack) : OperandStack := (words v).reverse ++ s

/-- The value on top and the stack below it; none when no value lies there. -/
def pop? : OperandStack → Option (Value × OperandStack)
  | type :: size :: s =>
    if VarType.uint.tag.toUInt64 < type || maxValueSize < size.toNat then none
    else
      let count := (wordCount size.toNat).toNat
      let data := s.take count
      if data.length < count then none
      else (unpackWords? data.reverse size.toNat).map fun bytes =>
        (⟨⟨type.toUInt8⟩, bytes⟩, s.drop count)
  | _ => none

/-- The `count` values on top, bottom first, and the stack below them. -/
def popMany? : (count : Nat) → OperandStack → Option (List Value × OperandStack)
  | 0, s => some ([], s)
  | count + 1, s => do
    let (v, s) ← pop? s
    let (below, s) ← popMany? count s
    return (below ++ [v], s)

end OperandStack

end TickScript
