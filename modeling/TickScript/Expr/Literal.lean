import TickScript.Diagnostic
import TickScript.Expr.Basic

/-!
# Values of literals

A literal is stored in a variable only when its shape allows it: a string only in a string, a float
in a float or a bool, an integer in any number type that can hold it or as an object handle.
-/

namespace TickScript

namespace Expr

/-- The digits of a number literal and whether a minus sign stands in front. -/
def numberParts : Expr → Bool × Text
  | .unary operator (.number token) => (operator.kind = .minus, token.text)
  | .number token => (false, token.text)
  | _ => (false, [])

/-- The digits of an expression that is taken for a number literal; none when it is not one. -/
def numberParts? : Expr → Option (Bool × Text)
  | unary operator operand =>
    match operand with
    | number token => some (operator.kind = .minus, token.text)
    | _ => none
  | number token => some (false, token.text)
  | _ => none

/-- The integer that a number literal spells. -/
def integerValue (e : Expr) : Except LiteralError Int :=
  let (negative, text) := e.numberParts
  match Number.signedDecimal 64 text with
  | .ok n => .ok (if negative then -n else n)
  | .error _ => .error (.malformedNumber text)

/-- The float that a number literal spells, in the 64-bit format. -/
def realValue (e : Expr) : Except LiteralError Number.Real :=
  let (negative, text) := e.numberParts
  match Number.parse .double text with
  | .ok x => .ok (if negative then x.neg else x)
  | .error _ => .error (.malformedNumber text)

/-- The largest number of the 32-bit format. -/
def largestSingle : Number.Real := .finite false 0xFFFFFF 104

/-- Whether a number lies beyond the 32-bit format. -/
def exceedsSingle : Number.Real → Bool
  | .finite _ m e => Number.Real.compare? (.finite false m e) largestSingle == some .gt
  | .infinite _ => true
  | .notANumber => false

/-- A float literal as a value of a type. -/
def realLiteral (x : Number.Real) (type : VarType) : Except LiteralError Value :=
  match type with
  | .float => if exceedsSingle x then .error (.floatOverflow x) else .ok (.ofReal x)
  | .bool => .ok (.ofBool !x.isZero)
  | _ => .error (.mismatch .float type)

/-- An integer literal as a value of a type. -/
def integerLiteral (n : Int) (type : VarType) : Except LiteralError Value :=
  match type with
  | .int => if n < -0x80000000 || 0x80000000 ≤ n then .error (.intOverflow n) else .ok (.ofInt n)
  | .uint =>
    if n < 0 then .error (.uintNegative n)
    else if 0x100000000 ≤ n then .error (.uintOverflow n)
    else .ok (.ofUint n)
  | .float => .ok (.ofReal ((Number.Real.ofInt n).roundTo .double))
  | .bool => .ok (.ofBool (n != 0))
  | .object => .ok (.ofHandle n)
  | _ => .error (.mismatch .int type)

/-- A literal as a value of a type. -/
def literal (e : Expr) (type : VarType) : Except LiteralError Value :=
  match e.literalType? with
  | none => .error .notLiteral
  | some .string =>
    match e, type with
    | .string _ value, .string => .ok (.ofText value)
    | _, _ => .error (.mismatch .string type)
  | some .bool =>
    match e, type with
    | _, .string => .error (.mismatch .bool type)
    | _, .object => .error (.mismatch .bool type)
    | .word token, _ => .ok ((Value.ofBool (token.kind = .true)).convert type)
    | _, _ => .error (.mismatch .bool type)
  | some .float => do realLiteral (← e.realValue) type
  | some .int => do integerLiteral (← e.integerValue) type
  | some shape => .error (.mismatch shape type)

/-- A literal as a value of a type, where the shape of an expression is trusted: one with the shape
of a string is taken for a string, one with that of a bool for a word and one with that of a number
for a number. None when it is something else. -/
def literal? (e : Expr) (type : VarType) : Option (Except LiteralError Value) :=
  match e.literalType? with
  | none => some (.error .notLiteral)
  | some .string =>
    if type ≠ .string then some (.error (.mismatch .string type))
    else match e with
      | .string _ value => some (.ok (.ofText value))
      | _ => none
  | some .bool =>
    if type = .string || type = .object then some (.error (.mismatch .bool type))
    else match e with
      | .word token => some (.ok ((Value.ofBool (token.kind = .true)).convert type))
      | _ => none
  | some .float => e.numberParts?.map fun _ => do realLiteral (← e.realValue) type
  | some .int => e.numberParts?.map fun _ => do integerLiteral (← e.integerValue) type
  | some shape => some (.error (.mismatch shape type))

end Expr

end TickScript
