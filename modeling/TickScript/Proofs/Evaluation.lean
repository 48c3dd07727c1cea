import TickScript.Expr.Literal
import TickScript.Machine.Arith
import TickScript.Machine.Host
import TickScript.Stmt.Basic

/-!
# What a function means

An evaluator for the bodies of functions that knows nothing of code and machines. It works from left
to right on a store of named variables and follows the structure of expressions and statements. Only
two things need not end, the turns of a loop and calls: an evaluation is given a number of turns and
a depth of calls that it must not exceed, and is exhausted when it does.

A block forgets its variables when it ends, so the innermost variable of a name is the one that the
name stands for. A variable keeps its type: what is assigned to it is converted first, and so are the
arguments and the result of a call.

The evaluator is the measure by which generated code is judged, so it shares as little as possible
with it. It has no stacks, no flags, no ids and no addresses. What it does share are the operations
on values, which are part of the language: conversion to a type, comparison, and the operations
between two values (`BinaryOp.apply`), whose only failure is a division by zero. A request about an
object that the host refuses leaves everything as it was.
-/

namespace TickScript

/-- Why an evaluation has no answer. -/
inductive Halt where
  /-- It divides or takes a remainder by zero. -/
  | divided
  /-- It needs more turns or a greater depth. -/
  | exhausted
  /-- It meets something that has no meaning, such as a name that nothing has. -/
  | stuck
deriving DecidableEq, Repr

/-- What an evaluation reads and changes. The latest local variable comes first. -/
structure Store where
  /-- The variables of the function, the innermost first. -/
  locals : List (Text × Value) := []
  /-- The global variables and fields. -/
  globals : Table Text Value
  /-- The objects of the host. -/
  host : Host
  /-- The object that is attached. -/
  attached : Handle
deriving DecidableEq, Repr

/-- An evaluation. -/
abbrev Eval := EStateM Halt Store

namespace Store

/-- The value of a variable: a local one, else a global. -/
def lookup? (σ : Store) (name : Text) : Option Value :=
  (Table.get? σ.locals name).orElse fun _ => σ.globals.get? name

/-- Writes a variable in the place where it is found. -/
def assign (name : Text) (v : Value) (σ : Store) : Store :=
  if Table.has σ.locals name then { σ with locals := Table.set σ.locals name v }
  else { σ with globals := σ.globals.set name v }

/-- A new local variable, which hides others of its name. -/
def declare (name : Text) (v : Value) (σ : Store) : Store :=
  { σ with locals := (name, v) :: σ.locals }

end Store

/-- Whether a value counts as true in a condition: it compares unequal to zero. -/
def Value.truth (v : Value) : Bool := v.order (.ofInt 0) != .eq

/-- The operation that an operator stands for. -/
def TokenKind.operation? : TokenKind → Option BinaryOp
  | plus | plusAssign => some .add
  | minus | minusAssign => some .sub
  | star | starAssign => some .mul
  | slash | slashAssign => some .div
  | percent | percentAssign => some .mod
  | ampersand | ampersandAssign => some .and
  | bar | barAssign => some .or
  | caret | caretAssign => some .xor
  | shiftLeft => some .shiftLeft
  | shiftRight => some .shiftRight
  | _ => none

namespace Eval

/-! ## Variables and operations -/

/-- Reads a variable. -/
def read (name : Text) : Eval Value := do
  match (← get).lookup? name with
  | some v => return v
  | none => throw .stuck

/-- Writes a variable, as a value of its type. -/
def write (name : Text) (v : Value) : Eval Unit := do
  match (← get).lookup? name with
  | some old => modify (·.assign name (v.convert old.type))
  | none => throw .stuck

/-- Computes with two values. -/
def compute (op? : Option BinaryOp) (a b : Value) : Eval Value :=
  match op? with
  | none => throw .stuck
  | some op =>
    match op.apply a b with
    | some v => return v
    | none => throw .divided

/-- The value of a literal as a type. -/
def literal (e : Expr) (type : VarType) : Eval Value :=
  match e.literal type with
  | .ok v => return v
  | .error _ => throw .stuck

/-- The value of a word. -/
def word (kind : TokenKind) : Eval Value := do
  match kind with
  | .true => return .ofBool true
  | .false => return .ofBool false
  | .null => return .ofHandle Name.nullObject.toInt
  | .attached => return .ofHandle (← get).attached.toInt
  | _ => throw .stuck

/-- Combines two values with an operator: a comparison, a connective of two conditions, both of which
have been evaluated, or an operation. -/
def combine (kind : TokenKind) (a b : Value) : Eval Value :=
  match kind.relation?, kind.connective? with
  | some relation, _ => return .ofBool (relation.holds (a.order b))
  | none, some .and => return .ofBool (a.truth && b.truth)
  | none, some .or => return .ofBool (a.truth || b.truth)
  | none, none => compute kind.operation? a b

/-- Asks the host something about an object. The object that is attached changes only if the host
does it. -/
def ask (request : Host → Except HostError Host) (attached : Handle → Handle) : Eval Value := do
  let σ ← get
  match request σ.host with
  | .ok host => set { σ with host, attached := attached σ.attached }
  | .error _ => pure ()
  return .void

/-- An operation on objects. -/
def object (kind : TokenKind) (v : Value) : Eval Value := do
  let handle := Int64.ofInt v.toInt
  match kind with
  | .instantiate =>
    let σ ← get
    match σ.host.instantiate v with
    | .ok (created, host) =>
      set { σ with host }
      return .ofHandle created.toInt
    | .error _ => return .ofHandle Name.nullObject.toInt
  | .delete => ask (·.delete handle) fun before => if before = handle then Name.nullObject else before
  | .attach => ask (·.attach handle) fun _ => handle
  | .detach => ask (·.detach handle) fun _ => Name.nullObject
  | _ => throw .stuck

/-! ## Expressions -/

section

variable (call : Text → List Value → Eval Value)

mutual

/-- The value of an expression, where `call` says what calls do. -/
def expr : Expr → Eval Value
  | .ident t => read t.text
  | .number t => literal (.number t) (Expr.numberType t)
  | .string _ value => return .ofText value
  | .word t => word t.kind
  | .unary operator operand => do
    match operator.kind, operand with
    | .minus, .number t => literal (.unary operator (.number t)) (Expr.numberType t)
    | .minus, _ => compute (some .sub) (.ofInt 0) (← expr operand)
    | .tilde, _ => compute (some .xor) (← expr operand) (.ofInt (-1))
    | .bang, _ => return .ofBool !(← expr operand).truth
    | _, _ => expr operand
  | .step operator target after => do
    let before ← read target.text
    let op : BinaryOp := if operator.kind = .decrement then .sub else .add
    write target.text (← compute (some op) before (.ofInt 1))
    if after then return before else read target.text
  | .binary operator left right => do
    let a ← expr left
    let b ← expr right
    combine operator.kind a b
  | .assign operator target value => do
    match operator.kind.compound? with
    | none => write target.text (← expr value)
    | some _ =>
      let before ← read target.text
      write target.text (← compute operator.kind.operation? before (← expr value))
    read target.text
  | .call callee args => do
    match callee.kind.objectOperation?, args with
    | none, args => call callee.text (← exprs args)
    | some _, [arg] => object callee.kind (← expr arg)
    | some _, _ => throw .stuck
  | .index _ _ => throw .stuck

/-- The values of some expressions. -/
def exprs : List Expr → Eval (List Value)
  | [] => return []
  | e :: rest => do
    let v ← expr e
    return v :: (← exprs rest)

end

/-- Whether a condition holds; one that is missing does. -/
def condition : Option Expr → Eval Bool
  | none => return true
  | some e => return (← expr call e).truth

end

/-! ## Statements -/

/-- How statements end. -/
inductive Flow where
  | next
  | returned (v : Value)
deriving DecidableEq, Repr

/-- Goes on unless a value was returned. -/
def andThen (first : Eval Flow) (more : Eval Flow) : Eval Flow := do
  match ← first with
  | .next => more
  | .returned v => return .returned v

/-- Forgets the variables that were declared in a block. -/
def block (body : Eval Flow) : Eval Flow := do
  let depth := (← get).locals.length
  let flow ← body
  modify fun σ => { σ with locals := σ.locals.drop (σ.locals.length - depth) }
  return flow

/-- Tests and runs a body, at most a number of times. -/
def turns (test : Eval Bool) (body : Eval Flow) : Nat → Eval Flow
  | 0 => throw .exhausted
  | n + 1 => do
    if ← test then andThen body (turns test body n) else return .next

section

variable (call : Text → List Value → Eval Value) (limit : Nat) (returnType : VarType)

/-- Declares a variable. Its initial value is evaluated when it already exists; a constant is taken
as the type of the variable. -/
def declare (d : VarDecl) : Eval Unit := do
  modify (·.declare d.name (.zero d.type))
  match d.initial? with
  | none => return
  | some e => write d.name (← if e.isConstant then literal e d.type else expr call e)

/-- The result that a return gives; a constant is taken as the type of the function. -/
def result : Option Expr → Eval Value
  | none => return .zero returnType
  | some e => if e.isConstant then literal e returnType else expr call e

/-- What a loop starts with. -/
def start : LoopStart → Eval Unit
  | .nothing => return
  | .declare d => declare call d
  | .evaluate e => do
    let _ ← expr call e

/-- The step of a loop; a `do` loop has none. -/
def next (kind : LoopKind) : Option Expr → Eval Flow
  | none => return .next
  | some e => do
    if kind ≠ .doWhile then
      let _ ← expr call e
    return .next

mutual

/-- Runs a statement. -/
def stmt : Stmt → Eval Flow
  | .declare d => do
    declare call d
    return .next
  | .expr _ _ kind value? => do
    match kind, value? with
    | .return_, value? => return .returned (← result call returnType value?)
    | _, none => return .next
    | _, some e =>
      let _ ← expr call e
      return .next
  | .ifElse _ _ test body rest => do
    if (← expr call test).truth then block (stmts body) else alternatives rest
  | .loop _ _ kind test? step? init body =>
    block do
      start call init
      let turn := andThen (block (stmts body)) (next call kind step?)
      if kind = .doWhile then andThen turn (turns (condition call test?) turn limit)
      else turns (condition call test?) turn limit

/-- Runs statements in a row. -/
def stmts : List Stmt → Eval Flow
  | [] => return .next
  | s :: rest => andThen (stmt s) (stmts rest)

/-- Runs the first branch whose condition holds. -/
def alternatives : Alternatives → Eval Flow
  | .none => return .next
  | .otherwise _ _ body => block (stmts body)
  | .elseIf _ _ test body rest => do
    if (← expr call test).truth then block (stmts body) else alternatives rest

end

end

/-! ## Calls -/

/-- The function of a name that has a body. -/
def bodyOf? (program : List Decl) (name : Text) : Option (FuncDecl × List Stmt) :=
  program.findSome? fun
    | .function f => if f.name = name then f.body?.map (f, ·) else none
    | _ => none

/-- The parameters as local variables. -/
def parameters (params : List Param) (args : List Value) : List (Text × Value) :=
  ((params.zip args).map fun (p, v) => (p.name, v.convert p.type)).reverse

/-- Calls a function of a program. The variables of the caller are out of sight meanwhile. -/
def function (program : List Decl) : (limit : Nat) → Text → List Value → Eval Value
  | 0, _, _ => throw .exhausted
  | limit + 1, name, args => do
    match bodyOf? program name with
    | none => throw .stuck
    | some (f, body) =>
      let callers := (← get).locals
      modify fun σ => { σ with locals := parameters f.params args }
      let flow ← stmts (function program limit) limit f.returnType body
      modify fun σ => { σ with locals := callers }
      match flow with
      | .returned v => return v.convert f.returnType
      | .next => return .zero f.returnType

end Eval

end TickScript
