import TickScript.Value

/-!
# Symbols

The variables that a function can see. Blocks nest: entering one sets a mark, leaving it drops
everything declared behind the mark. A variable that hides one of an outer block gets a name of its
own, numbered by how many it hides, so both keep their ids.
-/

namespace TickScript

/-- A variable. -/
structure Symbol where
  name : Text
  /-- The name that the id is derived from; empty for a variable outside of functions. -/
  qualified : Text
  id : Id
  type : VarType
deriving DecidableEq, Repr, Inhabited

/-- The variables visible in a function. -/
structure SymbolTable where
  function : Text
  /-- The visible variables, in order of declaration. -/
  symbols : List Symbol := []
  /-- How many variables there were when each open block was entered, innermost first. -/
  marks : List Nat := []
deriving DecidableEq, Repr, Inhabited

namespace SymbolTable

/-- Where the innermost block starts. -/
def start (t : SymbolTable) : Nat := t.marks.headD 0

/-- Whether a variable from before the innermost block was removed, so that its mark points past the
last variable. -/
def isBroken (t : SymbolTable) : Bool := t.symbols.length < t.start

/-- The name that the id of a variable is derived from, when it hides some others. -/
def qualifiedName (function name : Text) (hidden : Nat) : Text :=
  if hidden == 0 then Name.qualified function name
  else Name.qualified function name ++ "$" ++ Text.ofNat (hidden + 1)

/-- Declares a variable in the innermost block. Answers the variable, whether it is new, and the
table; a name that the block has already keeps its first variable. -/
def declare (t : SymbolTable) (name : Text) (type : VarType) : Symbol × Bool × SymbolTable :=
  match (t.symbols.drop t.start).find? (·.name == name) with
  | some s => (s, false, t)
  | none =>
    let hidden := (t.symbols.take t.start).countP (·.name == name)
    let qualified := qualifiedName t.function name hidden
    let s : Symbol := ⟨name, qualified, Name.id qualified, type⟩
    (s, true, { t with symbols := t.symbols ++ [s] })

/-- Declares a variable; none when the table is broken. -/
def declare? (t : SymbolTable) (name : Text) (type : VarType) :
    Option (Symbol × Bool × SymbolTable) :=
  if t.isBroken then none else some (t.declare name type)

/-- The innermost variable with a name. -/
def find? (t : SymbolTable) (name : Text) : Option Symbol :=
  t.symbols.reverse.find? (·.name == name)

/-- Removes the innermost variable with a name before its block ends. -/
def remove (t : SymbolTable) (name : Text) : SymbolTable :=
  { t with symbols := (t.symbols.reverse.eraseP (·.name == name)).reverse }

/-- Enters a block. -/
def enter (t : SymbolTable) : SymbolTable := { t with marks := t.symbols.length :: t.marks }

/-- Leaves the innermost block. Answers the variables that it drops, in order of declaration. -/
def leave (t : SymbolTable) : List Symbol × SymbolTable :=
  match t.marks with
  | [] => ([], t)
  | mark :: marks =>
    (t.symbols.drop mark, { t with symbols := t.symbols.take mark, marks := marks })

end SymbolTable

end TickScript
