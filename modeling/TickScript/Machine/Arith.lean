import TickScript.Opcode

/-!
# Arithmetic and comparison of values

A binary operation looks at the types of its operands. A text makes `+` a concatenation, a float
makes the computation one of floats, and everything else is computed in 64-bit integers, of which
the result keeps 32 bits. Only division and remainder can fail, and only by zero.
-/

namespace TickScript

open TickScript.Number

/-- The operations on two operands. -/
inductive BinaryOp where
  | add
  | sub
  | mul
  | div
  | mod
  | and
  | or
  | xor
  | shiftLeft
  | shiftRight
deriving DecidableEq, Repr

namespace BinaryOp

/-- The operation on 64-bit words, which wrap; none when it divides by zero. A shift looks at the
low six bits of its distance. -/
def onInts (op : BinaryOp) (x y : Int64) : Option Int64 :=
  match op with
  | add => some (x + y)
  | sub => some (x - y)
  | mul => some (x * y)
  | div => if y = 0 then none else some (x / y)
  | mod => if y = 0 then none else some (x % y)
  | and => some (x &&& y)
  | or => some (x ||| y)
  | xor => some (x ^^^ y)
  | shiftLeft => some (x <<< (y &&& 63))
  | shiftRight => some (x >>> (y &&& 63))

/-- The operation on floats; none when it divides by zero. The bitwise operations act on the integer
parts. -/
def onReals (op : BinaryOp) (x y : Number.Real) : Option Number.Real :=
  match op with
  | add => some (x.add y)
  | sub => some (x.sub y)
  | mul => some (x.mul y)
  | div => if y.isZero then none else some (x.div y)
  | mod => if y.isZero then none else some (x.mod y)
  | _ =>
    (op.onInts (Int64.ofInt x.truncate) (Int64.ofInt y.truncate)).map fun n =>
      (Number.Real.ofInt n.toInt).roundTo .double

/-- The operation on values; none when it divides by zero. -/
def apply (op : BinaryOp) (a b : Value) : Option Value :=
  if op = add && (a.type = .string || b.type = .string) then some (.ofText (a.toText ++ b.toText))
  else if a.type = .float || b.type = .float then
    (op.onReals a.toReal b.toReal).map Value.ofReal
  else
    (op.onInts (Int64.ofInt a.toInt) (Int64.ofInt b.toInt)).map fun n =>
      if a.type = .uint && b.type = .uint then .ofUint n.toInt else .ofInt n.toInt

end BinaryOp

namespace Value

/-- The value as an operand of a comparison: a text counts by whether it is empty. -/
def comparable (v : Value) : Value := if v.type = .string then .ofBool v.toBool else v

/-- How two values compare: texts byte by byte, all else as numbers. What has no order with another
number counts as equal to it. -/
def order (a b : Value) : Ordering :=
  if a.type = .string && b.type = .string then
    if a.toText = b.toText then .eq else if Text.le a.toText b.toText then .lt else .gt
  else if a.type = .float || b.type = .float then
    (a.comparable.toReal.compare? b.comparable.toReal).getD .eq
  else compare a.comparable.toInt b.comparable.toInt

end Value

/-- Whether a relation holds between two things that compare so. -/
def Relation.holds : Relation → Ordering → Bool
  | equal, o => o == .eq
  | notEqual, o => o != .eq
  | less, o => o == .lt
  | lessEqual, o => o != .gt
  | greater, o => o == .gt
  | greaterEqual, o => o != .lt

end TickScript
