import TickScript.Opcode
import TickScript.Token.Basic

/-!
# Expressions

Expression trees, with the tokens that diagnostics point at. A literal is an expression whose value
is known from its shape alone: a number with an optional sign, a string, or one of the words `true`,
`false`, `null` and `attached`.
-/

namespace TickScript

/-- An expression. -/
inductive Expr where
  | ident (token : Token)
  | number (token : Token)
  /-- A string with its opening quote. -/
  | string (opening : Token) (value : Text)
  /-- `true`, `false`, `null`, `attached`, or an operation on objects without its argument list. -/
  | word (token : Token)
  | unary (operator : Token) (operand : Expr)
  /-- `++x`, `--x`, and with `after` set `x++`, `x--`. -/
  | step (operator target : Token) (after : Bool)
  | binary (operator : Token) (left right : Expr)
  /-- Plain or compound assignment. -/
  | assign (operator target : Token) (value : Expr)
  /-- A call of a function or of an operation on objects. -/
  | call (callee : Token) (args : List Expr)
  | index (target subscript : Expr)
deriving Repr, Inhabited

namespace Expr

/-- The token that an expression starts at. -/
def position : Expr → Token
  | ident token => token
  | number token => token
  | string opening _ => opening
  | word token => token
  | unary operator _ => operator
  | step operator _ _ => operator
  | binary _ left _ => left.position
  | assign _ target _ => target
  | call callee _ => callee
  | index target _ => target.position

/-- The type of a number by its spelling: a point makes it a float. -/
def numberType (token : Token) : VarType := if token.text.contains 0x2E then .float else .int

/-- The type that a literal has by its shape; none for other expressions. -/
def literalType? : Expr → Option VarType
  | number token => some (numberType token)
  | unary operator (number token) =>
    if operator.kind = .minus || operator.kind = .plus then some (numberType token) else none
  | string .. => some .string
  | word token =>
    match token.kind with
    | .true => some .bool
    | .false => some .bool
    | .null => some .object
    | .attached => some .object
    | _ => none
  | _ => none

/-- Whether the bytes of an expression are known before it runs. Objects are not. -/
def isConstant : Expr → Bool
  | word token => token.kind = .true || token.kind = .false
  | e => e.literalType?.isSome

/-- Whether an expression is the word `null`. -/
def isNull : Expr → Bool
  | word token => token.kind = .null
  | _ => false

end Expr

/-! ## Operators -/

namespace TokenKind

/-- How tightly an operator behind an operand binds; zero for tokens that are no such operator.
Bitwise operators bind tighter than arithmetic, and `&&` and `||` tighter than comparison. -/
def infixPower : TokenKind → Nat
  | assign | plusAssign | minusAssign | starAssign | slashAssign | percentAssign | ampersandAssign
  | barAssign | caretAssign => 1
  | equal | notEqual | lessEqual | greaterEqual | less | greater => 2
  | andAnd | orOr => 3
  | plus | minus => 4
  | star | slash | percent => 5
  | ampersand | bar | caret | shiftLeft | shiftRight => 6
  | increment | decrement => 8
  | leftBracket => 9
  | leftParen => 10
  | _ => 0

/-- How tightly the operators in front of an operand bind. -/
def operandPower : Nat := 7

/-- The relation that a comparison operator asks for. -/
def relation? : TokenKind → Option Relation
  | equal => some .equal
  | notEqual => some .notEqual
  | less => some .less
  | lessEqual => some .lessEqual
  | greater => some .greater
  | greaterEqual => some .greaterEqual
  | _ => none

/-- The connective of a combined comparison. -/
def connective? : TokenKind → Option Connective
  | andAnd => some .and
  | orOr => some .or
  | _ => none

/-- The operation of an arithmetic operator. -/
def arithmetic? : TokenKind → Option Opcode
  | plus => some .add
  | minus => some .sub
  | star => some .mul
  | slash => some .div
  | percent => some .mod
  | ampersand => some .and
  | bar => some .or
  | caret => some .xor
  | shiftLeft => some .shiftLeft
  | shiftRight => some .shiftRight
  | _ => none

/-- The operation of a compound assignment. -/
def compound? : TokenKind → Option Opcode
  | plusAssign => some .add
  | minusAssign => some .sub
  | starAssign => some .mul
  | slashAssign => some .div
  | percentAssign => some .mod
  | ampersandAssign => some .and
  | barAssign => some .or
  | caretAssign => some .xor
  | _ => none

/-- The operation on objects that a word names. -/
def objectOperation? : TokenKind → Option Opcode
  | instantiate => some .instantiate
  | delete => some .delete
  | attach => some .attach
  | detach => some .detach
  | _ => none

end TokenKind

end TickScript
