import TickScript.Codegen.Basic

/-!
# Code of expressions

An expression is compiled for what is wanted of it: a value on the stack, its truth in the compare
value, or nothing but its effect. Comparisons answer in the compare value; `&&` and `||` save the
left answer, compile the right one and combine the two, so both sides are always evaluated. Any
other expression is true when it differs from zero.
-/

namespace TickScript.Gen

/-- What is wanted of an expression. -/
inductive Want where
  | value
  | truth
  | effect
deriving DecidableEq, Repr

/-- Compares the value on the stack with zero. -/
def compareZero (r : Relation) : Code := literalCode (.ofInt 0) ++ [Instr.compare r]

/-- Turns code that leaves a value into what is wanted. -/
def fromValue (want : Want) (code : Code) : Code :=
  match want with
  | .value => code
  | .truth => code ++ compareZero .notEqual
  | .effect => code ++ [.plain .pop]

/-- Turns code that answers in the compare value into what is wanted. -/
def fromTruth (want : Want) (code : Code) : Code :=
  match want with
  | .value => code ++ [.plain .pushCompare]
  | .truth => code
  | .effect => code ++ [.plain .pushCompare, .plain .pop]

/-- The value of a literal by its own shape. -/
def literalValue (e : Expr) : Gen Code := do
  match ← literalOf e (e.literalType?.getD .invalid) with
  | .ok v => return literalCode v
  | .error error =>
    report e.position (.badLiteral error)
    return []

/-- The value of a word. -/
def wordValue (t : Token) : Gen Code := do
  match t.kind with
  | .true => return literalCode (.ofBool true)
  | .false => return literalCode (.ofBool false)
  | .null => return [.withWord .pushVar Name.nullObject]
  | .attached => return [.withWord .pushVar Name.attachedObject]
  | _ =>
    report t (.wordNeedsArguments t.text)
    return []

/-- The steps `++` and `--`. As a value the step behind a variable answers the old value, the one in
front the new value. -/
def stepCode (operator target : Token) (after : Bool) (want : Want) : Gen Code := do
  match ← resolve target with
  | none => return fromValue (if want = .effect then .value else want) []
  | some symbol =>
    let load := Instr.withWord .pushVar symbol.id
    let op : Opcode := if operator.kind = .decrement then .sub else .add
    let change := load :: literalCode (.ofInt 1) ++ [.plain op, .withWord .popVar symbol.id]
    if want = .effect then return change
    else if after then return fromValue want (load :: change)
    else return fromValue want (change ++ [load])

/-- Checks a constant against the type of the variable that it is assigned to. -/
def fits (name : Text) (e : Expr) (type : VarType) : Gen Bool := do
  if e.isConstant then
    match ← literalOf e type with
    | .ok _ => return true
    | .error error =>
      report e.position (.badInitializer name error)
      return false
  else return true

/-- The function that a call refers to, or nothing when the call is refused. The inner option is
empty for a function that is not part of the unit. -/
def calledFunction (callee : Token) (count : Nat) : Gen (Option (Option FuncDecl)) := do
  let s ← get
  let name := callee.text
  if (s.scope.find? name).isSome || s.globals.has name then
    report callee (.variableNotFunction name)
    return none
  else match s.functions.get? name with
    | some f =>
      if f.params.length ≠ count then
        report callee (.arity name f.params.length count)
        return none
      else return some (some f)
    | none => return some none

/-- Checks a constant against the parameter that it is passed to. -/
def checkArgument (f? : Option FuncDecl) (index : Nat) (e : Expr) : Gen Unit := do
  match f? with
  | none => return
  | some f =>
    if e.isConstant then
      match f.params[index]? with
      | none => breakDown .outOfRange
      | some param =>
        match ← literalOf e param.type with
        | .ok _ => return
        | .error error => report e.position (.badArgument (index + 1) f.name error)

mutual

/-- The code of an expression. -/
def expr (want : Want) : Expr → Gen Code
  | .ident t => do
    match ← resolve t with
    | some symbol => return fromValue want [.withWord .pushVar symbol.id]
    | none => return fromValue want []
  | .number t => do return fromValue want (← literalValue (.number t))
  | .string _ value => return fromValue want (literalCode (.ofText value))
  | .word t => do return fromValue want (← wordValue t)
  | .unary operator operand => do
    match operator.kind with
    | .minus =>
      match operand with
      | .number t => return fromValue want (← literalValue (.unary operator (.number t)))
      | _ =>
        let code ← expr .value operand
        return fromValue want (literalCode (.ofInt 0) ++ code ++ [.plain .sub])
    | .tilde =>
      let code ← expr .value operand
      return fromValue want (code ++ literalCode (.ofInt (-1)) ++ [.plain .xor])
    | .bang =>
      let code ← expr .value operand
      return fromTruth want (code ++ compareZero .equal)
    | _ => return fromValue want (← expr .value operand)
  | .step operator target after => stepCode operator target after want
  | .binary operator left right => do
    match operator.kind.relation?, operator.kind.connective? with
    | some relation, _ =>
      let first ← expr .value left
      let second ← expr .value right
      return fromTruth want (first ++ second ++ [.compare relation])
    | none, some connective =>
      let first ← expr .truth left
      let second ← expr .truth right
      return fromTruth want (first ++ [.plain .saveCompare] ++ second ++ [.combine connective])
    | none, none =>
      let first ← expr .value left
      let second ← expr .value right
      let op := (operator.kind.arithmetic?).getD .nop
      return fromValue want (first ++ second ++ [.plain op])
  | .assign operator target value => do
    match ← resolve target with
    | none => return fromValue (if want = .effect then .value else want) []
    | some symbol =>
      let store := Instr.withWord .popVar symbol.id
      let load := Instr.withWord .pushVar symbol.id
      let finished (code : Code) : Code :=
        if want = .effect then code ++ [store] else fromValue want (code ++ [store, load])
      match operator.kind.compound? with
      | none =>
        if ← fits symbol.name value symbol.type then return finished (← expr .value value)
        else return fromValue (if want = .effect then .value else want) []
      | some op => return finished (load :: (← expr .value value) ++ [.plain op])
  | .call callee args => do
    match callee.kind.objectOperation? with
    | some op =>
      if args.length ≠ 1 then
        report callee (.wordArity callee.text args.length)
        return fromValue want []
      else
        let code ← arguments none 0 args
        return fromValue want (code ++ [.plain op])
    | none =>
      match ← calledFunction callee args.length with
      | none => return fromValue want []
      | some f? =>
        let code ← arguments f? 0 args
        let id := Name.id callee.text
        register callee id callee.text
        return fromValue want (code ++ [.withWord .call id])
  | .index target _ => do
    report target.position .indexing
    return fromValue want []

/-- The code of arguments, the first of which has an index. -/
def arguments (f? : Option FuncDecl) : (index : Nat) → List Expr → Gen Code
  | _, [] => return []
  | index, e :: rest => do
    checkArgument f? index e
    let first ← expr .value e
    return first ++ (← arguments f? (index + 1) rest)

end

end TickScript.Gen
