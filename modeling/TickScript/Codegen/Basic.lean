import TickScript.Diagnostic
import TickScript.Expr.Literal
import TickScript.Stmt.Basic
import TickScript.Symbol

/-!
# The state of code generation

What the generator knows: which name stands behind each id, the variables and functions of the unit,
and the variables visible at the place that is being compiled. Code is a list of instructions;
bodies are generated on their own, so their sizes are known when the jumps around them are written.
-/

namespace TickScript

/-- The code of a piece of the source. -/
abbrev Code := List Instr

/-- What is known while a unit is compiled. -/
structure GenState where
  /-- The name behind each id. -/
  names : Names := []
  /-- The fields and variables of the unit. -/
  globals : Table Text Symbol := []
  /-- The functions of the unit. -/
  functions : Table Text FuncDecl := []
  /-- The variables visible in the current function. -/
  scope : SymbolTable := ⟨[], [], []⟩

/-- The stage that generates code. -/
abbrev Gen := StateT GenState Reporting

namespace Gen

/-- Records the name behind an id. Two names with one id are reported. -/
def register (t : Token) (id : Id) (name : Text) : Gen Unit := do
  match (← get).names.get? id with
  | some other => if other != name then report t (.collision name other id)
  | none => modify fun s => { s with names := s.names.set id name }

/-- Declares a local variable. There is no way to do so in a broken table. -/
def declareLocal (name : Text) (type : VarType) : Gen (Symbol × Bool) := do
  let s ← get
  match s.scope.declare? name type with
  | none => breakDown .outOfRange
  | some (symbol, fresh, scope) =>
    set { s with scope := scope }
    return (symbol, fresh)

/-- Enters a block. -/
def enter : Gen Unit := modify fun s => { s with scope := s.scope.enter }

/-- Leaves a block and answers the variables that it drops. -/
def leave : Gen (List Symbol) := do
  let s ← get
  let (dropped, scope) := s.scope.leave
  set { s with scope := scope }
  return dropped

/-- The variable that a name stands for: a local one, or else one of the unit. -/
def resolve (t : Token) : Gen (Option Symbol) := do
  let s ← get
  match s.scope.find? t.text with
  | some symbol => return some symbol
  | none =>
    match s.globals.get? t.text with
    | some symbol => return some symbol
    | none =>
      if s.functions.has t.text then report t (.functionNotVariable t.text)
      else report t (.undefinedVariable t.text)
      return none

/-- The value of an expression that is taken for a literal. -/
def literalOf (e : Expr) (type : VarType) : Gen (Except LiteralError Value) :=
  match e.literal? type with
  | none => breakDown .wrongKind
  | some value => return value

/-- The code that leaves a value on the stack. -/
def literalCode (v : Value) : Code := Instr.literal v.type v.data

/-- A relative jump; one that reaches too far is reported and left out. -/
def jump (t : Token) (op : Opcode) (distance : Int) : Gen Code := do
  match Instr.relativeJump op distance with
  | .ok i => return [i]
  | .error e =>
    report t (.jumpTooFar e)
    return []

/-- The code that frees variables. -/
def freeCode (ids : List Id) : Code := ids.map (Instr.withWord .free)

end Gen

end TickScript
