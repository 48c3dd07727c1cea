import TickScript.Codegen.Expr

/-!
# Code of statements

An if chain is laid out from its last branch backwards, so that every jump to the end knows how much
code follows it; a loop that tests first jumps to its condition, which stands behind the body and
jumps back. Chains and loops save the compare value around themselves. A block frees its variables
when it ends, a return frees all that are visible.
-/

namespace TickScript.Gen

/-- The function that is being compiled. -/
structure FunctionContext where
  name : Text
  returnType : VarType

/-- The bytes that a variable needs: those of its type, or of the string that it starts with. -/
def storageSize (type : VarType) (initial? : Option Expr) : UInt64 :=
  match type.size? with
  | some size => UInt64.ofNat size
  | none =>
    match initial? with
    | some (.string _ value) => UInt64.ofNat (value.length + 1)
    | _ => 0

/-- Writes the initial value into a new variable. -/
def initialise (symbol : Symbol) (init : Expr) : Gen Code := do
  let store := Instr.withWord .popVar symbol.id
  if init.literalType? = some .object && symbol.type ≠ .object then
    report init.position (.wordMismatch init.position.text symbol.type)
    return []
  else if init.isConstant then
    match ← literalOf init symbol.type with
    | .ok v => return [.set symbol.id v.data]
    | .error error =>
      report init.position (.badInitializer symbol.name error)
      return []
  else return (← expr .value init) ++ [store]

/-- Declares a variable inside a function. -/
def localVar (d : VarDecl) : Gen (Symbol × Code) := do
  if (← get).functions.has d.name then report d.token (.shadowsFunction d.name)
  let (symbol, fresh) ← declareLocal d.name d.type
  if !fresh then report d.token (.redeclaredInBlock d.name)
  register d.token symbol.id symbol.qualified
  let allocation := Instr.allocate (storageSize d.type d.initial?) d.type symbol.id
  match d.initial? with
  | none => return (symbol, [allocation])
  | some init => return (symbol, allocation :: (← initialise symbol init))

/-- The variable that holds a constant result while the others are freed. -/
def resultName (ctx : FunctionContext) : Text := Name.qualified ctx.name "$return"

/-- Frees the visible variables and returns. -/
def leaveFunction (ctx : FunctionContext) (result : Code) (extra : List Id) : Gen Code := do
  let visible := ((← get).scope.symbols.map (·.id)).reverse
  let void := if ctx.returnType = .void then literalCode .void else []
  return result ++ freeCode (extra ++ visible) ++ void ++ [.plain .ret]

/-- Returns a result, or the end of a function without one. -/
def returnCode (ctx : FunctionContext) (t : Token) : Option Expr → Gen Code
  | none => do
    if ctx.returnType = .void then leaveFunction ctx [] []
    else
      if t.kind = .returnWord then report t (.missingResult ctx.name ctx.returnType)
      leaveFunction ctx (literalCode (.zero ctx.returnType)) []
  | some e => do
    if ctx.returnType = .void then
      report t (.unwantedResult ctx.name)
      return []
    else if e.isConstant then
      match ← literalOf e ctx.returnType with
      | .error error =>
        report e.position (.badResult error)
        return []
      | .ok v =>
        let name := resultName ctx
        let id := Name.id name
        register t id name
        leaveFunction ctx
          [.allocate (UInt64.ofNat v.data.length) ctx.returnType id, .set id v.data,
            .withWord .pushVar id] [id]
    else leaveFunction ctx (← expr .value e) []

/-- Whether a body ends in a return. -/
def endsWithReturn (body : List Stmt) : Bool :=
  match body.getLast? with
  | some (.expr _ _ .return_ _) => true
  | _ => false

/-- Puts a branch in front of the code behind it: a test that skips the body when it fails, the
body, and a jump over what follows. -/
def branchCode (t : Token) (test body tail : Code) : Gen Code := do
  let leaves := !tail.isEmpty
  let skip : Int := Instr.sizeAll body + (if leaves then relativeJumpSize else 0 : Nat)
  let enter ← jump t .jumpIfBy relativeJumpSize
  let avoid ← jump t .jumpBy skip
  let exit ← if leaves then jump t .jumpBy (Instr.sizeAll tail) else pure []
  return .plain .setFlag :: test ++ enter ++ avoid ++ body ++ exit ++ tail

/-- A branch whose body is compiled: its token, its condition and its code. -/
structure Branch where
  token : Token
  condition : Expr
  body : Code

/-- Lays out branches in front of a tail, the last one first. -/
def layBranches (tail : Code) : List Branch → Gen Code
  | [] => return tail
  | b :: rest => do
    let tail ← layBranches tail rest
    let test ← expr .truth b.condition
    branchCode b.token test b.body tail

/-- The condition of a loop that has none. -/
def alwaysTrue (t : Token) : Expr := .word ⟨.true, "true", t.line, t.file⟩

/-- The test of a loop at its end, which jumps back over `body` bytes. -/
def loopTest (t : Token) (condition : Expr) (body : Nat) : Gen Code := do
  let test ← expr .truth condition
  let back ← jump t .jumpIfBy
    (-(body + 1 + Instr.sizeAll test + relativeJumpSize : Nat) : Int)
  return .plain .setFlag :: test ++ back

/-- The code that a loop starts with, and the variable that it declares. -/
def startCode : LoopStart → Gen (Option Symbol × Code)
  | .nothing => return (none, [])
  | .declare d => do
    let (symbol, code) ← localVar d
    return (some symbol, code)
  | .evaluate e => return (none, ← expr .effect e)

/-- The code of a loop around that of its body: a `do` loop tests behind the body, any other one
jumps to its test first and steps before it. -/
def loopCode (t : Token) (kind : LoopKind) (condition : Expr) (step? : Option Expr) (inner : Code) :
    Gen Code :=
  match kind with
  | .doWhile => do
    let test ← loopTest t condition (Instr.sizeAll inner)
    return .plain .saveCompare :: inner ++ test ++ [.plain .restoreCompare]
  | _ => do
    let next ← match step? with
      | some e => expr .effect e
      | none => pure []
    let inner := inner ++ next
    let forward ← jump t .jumpBy (Instr.sizeAll inner)
    let test ← loopTest t condition (Instr.sizeAll inner)
    return .plain .saveCompare :: forward ++ inner ++ test ++ [.plain .restoreCompare]

/-- Drops the variable that a loop started with. -/
def releaseCode : Option Symbol → Gen Code
  | none => return []
  | some symbol => do
    modify fun s => { s with scope := s.scope.remove symbol.name }
    return [.withWord .free symbol.id]

/-- The code of a block, given that of its statements. The block frees its variables unless it
returns. -/
def inBlock (body : List Stmt) (code : Gen Code) : Gen Code := do
  enter
  let code ← code
  let dropped ← leave
  if endsWithReturn body then return code
  else return code ++ freeCode (dropped.map (·.id)).reverse

mutual

/-- The code of a statement. -/
def stmt (ctx : FunctionContext) : Stmt → Gen Code
  | .declare d => do return (← localVar d).2
  | .expr _ t kind value? => do
    match kind, value? with
    | .return_, value? => returnCode ctx t value?
    | .condition, some e => expr .truth e
    | _, some e => expr .effect e
    | _, none => return []
  | .ifElse _ t condition body rest => do
    let otherwise ← elseCode ctx rest
    let first ← inBlock body (stmts ctx body)
    let others ← branches ctx rest
    let chain ← layBranches otherwise (⟨t, condition, first⟩ :: others)
    return .plain .saveCompare :: chain ++ [.plain .restoreCompare]
  | .loop _ t kind condition? step? start body => do
    enter
    let (started?, prologue) ← startCode start
    let inner ← inBlock body (stmts ctx body)
    let code ← loopCode t kind (condition?.getD (alwaysTrue t)) step? inner
    let release ← releaseCode started?
    let _ ← leave
    return prologue ++ code ++ release

/-- The code of statements in a row. -/
def stmts (ctx : FunctionContext) : List Stmt → Gen Code
  | [] => return []
  | s :: rest => do
    let first ← stmt ctx s
    return first ++ (← stmts ctx rest)

/-- The code of the last branch without a condition, if there is one. -/
def elseCode (ctx : FunctionContext) : Alternatives → Gen Code
  | .none => return []
  | .otherwise _ _ body => inBlock body (stmts ctx body)
  | .elseIf _ _ _ _ rest => elseCode ctx rest

/-- The compiled branches with a condition. -/
def branches (ctx : FunctionContext) : Alternatives → Gen (List Branch)
  | .none => return []
  | .otherwise _ _ _ => return []
  | .elseIf _ t condition body rest => do
    let code ← inBlock body (stmts ctx body)
    return ⟨t, condition, code⟩ :: (← branches ctx rest)

end

end TickScript.Gen
