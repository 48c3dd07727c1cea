import TickScript.Expr.Basic

/-!
# Declarations and statements

A program is a list of declarations; the body of a function is a list of statements. Every statement
has a name: a declaration its own, any other one a generated name that is unique in the unit.
-/

namespace TickScript

/-- The declaration of a variable. Inside a function the id is that of the qualified name. -/
structure VarDecl where
  name : Text
  id : Id
  token : Token
  type : VarType
  initial? : Option Expr
deriving Repr, Inhabited

/-- What an expression statement does. -/
inductive ExprKind where
  | arithmetic
  | condition
  | assignment
  | call
  | return_
  | keyword
deriving DecidableEq, Repr

/-- The name of a kind of expression statement. -/
def ExprKind.name : ExprKind → String
  | arithmetic => "arithmetic"
  | condition => "condition"
  | assignment => "assignment"
  | call => "call"
  | return_ => "return"
  | keyword => "keyword"

/-- The forms of loops. -/
inductive LoopKind where
  | doWhile
  | while_
  | for_
deriving DecidableEq, Repr

/-- The name of a form of loop. -/
def LoopKind.name : LoopKind → String
  | doWhile => "do"
  | while_ => "while"
  | for_ => "for"

/-- What a loop starts with. -/
inductive LoopStart where
  | nothing
  | declare (decl : VarDecl)
  | evaluate (init : Expr)
deriving Repr, Inhabited

mutual

/-- A statement. -/
inductive Stmt where
  | declare (decl : VarDecl)
  /-- An expression evaluated for its effect, or a return, whose expression may be missing. -/
  | expr (name : Text) (token : Token) (kind : ExprKind) (value? : Option Expr)
  | ifElse (name : Text) (token : Token) (condition : Expr) (body : List Stmt) (rest : Alternatives)
  /-- A loop; without a condition it runs until left by a return. -/
  | loop (name : Text) (token : Token) (kind : LoopKind) (condition? step? : Option Expr)
    (start : LoopStart) (body : List Stmt)

/-- The branches behind the first one of an if statement. -/
inductive Alternatives where
  | none
  | otherwise (name : Text) (token : Token) (body : List Stmt)
  | elseIf (name : Text) (token : Token) (condition : Expr) (body : List Stmt) (rest : Alternatives)

end

/-- A parameter of a function. -/
structure Param where
  token : Token
  type : VarType
  name : Text
deriving DecidableEq, Repr

/-- The declaration of a function; without a body it only announces the function. -/
structure FuncDecl where
  name : Text
  token : Token
  params : List Param
  returnType : VarType
  body? : Option (List Stmt)

namespace FuncDecl

/-- The id of a function. -/
def id (f : FuncDecl) : Id := Name.id f.name

/-- The header of a function as text. -/
def signature (f : FuncDecl) : Text :=
  let params : List Text := f.params.map fun p => p.type.name ++ " " ++ p.name
  "define " ++ f.name ++ "(" ++ Text.join ", " params ++ ") = " ++ f.returnType.name

end FuncDecl

/-- A declaration at the top of a unit. -/
inductive Decl where
  | field (decl : VarDecl)
  | var (decl : VarDecl)
  | function (decl : FuncDecl)

namespace Decl

/-- The name of a declaration. -/
def name : Decl → Text
  | field d => d.name
  | var d => d.name
  | function f => f.name

/-- The id of a declaration. -/
def id : Decl → Id
  | field d => d.id
  | var d => d.id
  | function f => f.id

/-- The token that a declaration starts at. -/
def token : Decl → Token
  | field d => d.token
  | var d => d.token
  | function f => f.token

end Decl

/-- What an expression statement does, by the shape of its expression. -/
def Expr.kind : Expr → ExprKind
  | .assign .. => .assignment
  | .step .. => .assignment
  | .call callee _ => if callee.kind.isObjectWord then .keyword else .call
  | .binary operator _ _ =>
    if operator.kind.relation?.isSome || operator.kind.connective?.isSome then .condition
    else .arithmetic
  | _ => .arithmetic

end TickScript
