import TickScript.Diagnostic
import TickScript.Expr.Basic

/-!
# Reading expressions

Expressions are read by precedence: an operand, then as many operators as bind tighter than the
place it stands in. `Expr.parse` reads a token list as exactly one expression; the first token that
does not fit is the one that is reported.
-/

namespace TickScript

/-- Why a token list is no expression. -/
inductive ExprError where
  | empty
  | at_ (diagnostic : Diagnostic)
deriving DecidableEq, Repr

/-- The wording of an expression error. -/
def ExprError.message : ExprError → Text
  | empty => "empty expression"
  | at_ diagnostic => diagnostic.render

namespace Expr

/-- A reading of the front of a token list: the expression and the tokens behind it. -/
abbrev Reading := Except Diagnostic (Expr × List Token)

/-- Fails at a token. -/
def failAt {α : Type} (t : Token) (cause : Cause) : Except Diagnostic α :=
  .error (Diagnostic.at_ t cause)

/-- The tokens behind one of the given kind. `final` is the last token of the expression. -/
def expect (final : Token) (kind : TokenKind) : List Token → Except Diagnostic (List Token)
  | [] => failAt final (.expectedAtEnd kind)
  | t :: rest => if t.kind = kind then .ok rest else failAt t (.expected kind t)

/-- The string behind its opening quote. -/
def readString (opening : Token) : List Token → Reading
  | [] => failAt opening .unclosedString
  | t :: rest =>
    if t.kind = .quote then .ok (.string opening [], rest)
    else match rest with
      | closing :: rest =>
        if closing.kind = .quote then .ok (.string opening t.text, rest)
        else failAt opening .unclosedString
      | [] => failAt opening .unclosedString

/-- The variable that an operator needs as its operand. -/
def variableToken? : Expr → Option Token
  | .ident token => some token
  | _ => none

/-- The callee that an argument list needs in front of it. -/
def callee (opening : Token) : Expr → Except Diagnostic Token
  | .ident token => .ok token
  | .word token =>
    if token.kind.isObjectWord then .ok token else failAt opening (.wordNotCallable token.text)
  | _ => failAt opening .notCallable

mutual

/-- Reads an expression whose operators bind tighter than `least`. -/
def readFrom (final : Token) : (fuel least : Nat) → List Token → Reading
  | 0, _, _ => failAt final .unexpectedEnd
  | _, _, [] => failAt final .unexpectedEnd
  | fuel + 1, least, t :: rest => do
    let (left, rest) ← readOperand final fuel t rest
    readOperators final fuel least left rest

/-- Reads the operand that starts with a token. -/
def readOperand (final : Token) : (fuel : Nat) → Token → List Token → Reading
  | 0, t, _ => failAt t (.invalidStart t)
  | fuel + 1, t, rest =>
    match t.kind with
    | .number => .ok (.number t, rest)
    | .text =>
      if isIdentifier t.text then .ok (.ident t, rest) else failAt t (.invalidIdentifier t.text)
    | .true | .false | .null | .attached | .instantiate | .delete | .attach | .detach =>
      .ok (.word t, rest)
    | .quote => readString t rest
    | .plus | .minus | .tilde | .bang => do
      let (operand, rest) ← readFrom final fuel TokenKind.operandPower rest
      .ok (.unary t operand, rest)
    | .increment | .decrement => do
      let (operand, rest) ← readFrom final fuel TokenKind.operandPower rest
      match variableToken? operand with
      | some target => .ok (.step t target false, rest)
      | none => failAt t (.operandNotVariable t.text)
    | .leftParen => do
      let (inner, rest) ← readFrom final fuel 0 rest
      let rest ← expect final .rightParen rest
      .ok (inner, rest)
    | _ => failAt t (.invalidStart t)

/-- Reads the operators behind an operand. -/
def readOperators (final : Token) : (fuel least : Nat) → Expr → List Token → Reading
  | 0, _, left, rest => .ok (left, rest)
  | _, _, left, [] => .ok (left, [])
  | fuel + 1, least, left, t :: rest => do
    let power := t.kind.infixPower
    if power ≤ least then .ok (left, t :: rest)
    else
      let (left, rest) ← readOperator final fuel left t rest
      readOperators final fuel least left rest

/-- Reads the operator `t` behind the operand `left`. -/
def readOperator (final : Token) : (fuel : Nat) → Expr → Token → List Token → Reading
  | 0, left, _, rest => .ok (left, rest)
  | fuel + 1, left, t, rest =>
    match t.kind with
    | .leftParen => do
      let callee ← callee t left
      match rest with
      | next :: rest' =>
        if next.kind = .rightParen then .ok (.call callee [], rest')
        else do
          let (args, rest) ← readArguments final fuel t rest
          .ok (.call callee args, rest)
      | [] => do
        let (args, rest) ← readArguments final fuel t rest
        .ok (.call callee args, rest)
    | .leftBracket => do
      let (subscript, rest) ← readFrom final fuel 0 rest
      let rest ← expect final .rightBracket rest
      .ok (.index left subscript, rest)
    | .increment | .decrement =>
      match variableToken? left with
      | some target => .ok (.step t target true, rest)
      | none => failAt t (.operandNotVariable t.text)
    | kind =>
      if kind.infixPower == 1 then
        match variableToken? left with
        | some target => do
          let (value, rest) ← readFrom final fuel 0 rest
          .ok (.assign t target value, rest)
        | none => failAt t (.targetNotVariable t.text)
      else do
        let (right, rest) ← readFrom final fuel kind.infixPower rest
        .ok (.binary t left right, rest)

/-- Reads arguments up to the closing parenthesis; `opening` is the opening one. -/
def readArguments (final : Token) :
    (fuel : Nat) → Token → List Token → Except Diagnostic (List Expr × List Token)
  | 0, opening, _ => failAt opening .unclosedArguments
  | fuel + 1, opening, tokens => do
    let (arg, rest) ← readFrom final fuel 0 tokens
    match rest with
    | [] => failAt opening .unclosedArguments
    | t :: rest =>
      if t.kind = .rightParen then .ok ([arg], rest)
      else if t.kind = .comma then do
        let (args, rest) ← readArguments final fuel opening rest
        .ok (arg :: args, rest)
      else failAt t (.badArguments t)

end

/-- Reads a token list as exactly one expression. Every call of a reader that does not consume a
token itself is followed by one that does, so four calls per token are enough. -/
def parse (tokens : List Token) : Except ExprError Expr :=
  match tokens.getLast? with
  | none => .error .empty
  | some final =>
    match readFrom final (4 * tokens.length + 4) 0 tokens with
    | .error d => .error (.at_ d)
    | .ok (e, []) => .ok e
    | .ok (_, t :: _) => .error (.at_ (Diagnostic.at_ t (.trailing t)))

end Expr

end TickScript
