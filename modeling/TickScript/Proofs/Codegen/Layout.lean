import TickScript.Proofs.Instr
import TickScript.Proofs.Syntax
import TickScript.Unit

/-!
# The code of each construct

`ExprCode`, `StmtCode` and `FunctionCode` say which code stands for which piece of a function, one
rule for each construct. They leave out how the generator arrives at the code: there is no state and
no report in them, only the variables that a piece can see and the tables of the whole unit. What the
generator emits in a clean run is code in this sense (`Proofs.Codegen.Expr` and `Proofs.Codegen.Stmt`), and every property of
generated code is proved by induction on these rules.

A rule also says which ids are fresh. Variables that can be seen at one place have different ids, and
none of them is the id of a variable of the unit.

The rules are stated on lists of instructions. Distances between instructions are sums of the sizes
of the code between them, so that a rule does not depend on where its code will be placed: the jumps
are relative ones. What the bytes of the instructions are is a matter of `Proofs.Instr`.

A rule for a jump has the condition that the distance fits the operand (`BranchFits`, `LoopFits`),
and the rules of calls have the condition that the call is listed in the tables. Both are facts that
a clean run establishes and that the theorems about generated code use.
-/

namespace TickScript

/-! ## Calls in a source -/

mutual

/-- The functions that an expression calls, each with the number of its arguments. -/
def Expr.callSites : Expr → List (Text × Nat)
  | .unary _ operand => operand.callSites
  | .binary _ left right => left.callSites ++ right.callSites
  | .assign _ _ value => value.callSites
  | .call callee args =>
    (if callee.kind.objectOperation?.isNone then [(callee.text, args.length)] else [])
      ++ Expr.allCallSites args
  | _ => []

/-- The functions that some expressions call. -/
def Expr.allCallSites : List Expr → List (Text × Nat)
  | [] => []
  | e :: rest => e.callSites ++ Expr.allCallSites rest

end

/-- The functions that an expression calls, if there is one. -/
def Expr.optionalCallSites (e? : Option Expr) : List (Text × Nat) := (e?.map callSites).getD []

/-- The functions that the start of a loop calls. -/
def LoopStart.callSites : LoopStart → List (Text × Nat)
  | .nothing => []
  | .declare d => Expr.optionalCallSites d.initial?
  | .evaluate e => e.callSites

mutual

/-- The functions that a statement calls. -/
def Stmt.callSites : Stmt → List (Text × Nat)
  | .declare d => Expr.optionalCallSites d.initial?
  | .expr _ _ _ value? => Expr.optionalCallSites value?
  | .ifElse _ _ condition body rest =>
    condition.callSites ++ Stmt.allCallSites body ++ rest.callSites
  | .loop _ _ _ condition? step? start body =>
    Expr.optionalCallSites condition? ++ Expr.optionalCallSites step? ++ start.callSites
      ++ Stmt.allCallSites body

/-- The functions that some statements call. -/
def Stmt.allCallSites : List Stmt → List (Text × Nat)
  | [] => []
  | s :: rest => s.callSites ++ Stmt.allCallSites rest

/-- The functions that the branches behind the first one call. -/
def Alternatives.callSites : Alternatives → List (Text × Nat)
  | .none => []
  | .otherwise _ _ body => Stmt.allCallSites body
  | .elseIf _ _ condition body rest =>
    condition.callSites ++ Stmt.allCallSites body ++ rest.callSites

end

/-- The functions that the bodies of a unit call. -/
def callSites (program : List Decl) : List (Text × Nat) :=
  program.flatMap fun
    | .function f => (f.body?.map Stmt.allCallSites).getD []
    | _ => []

namespace Gen

/-! ## Tables -/

/-- What is fixed while the functions of a unit are compiled: the name behind every id, the
variables and functions of the unit, and the calls that its functions make. -/
structure Tables where
  /-- The names that ids stand for. -/
  names : Names
  /-- The global variables by their names. -/
  globals : Table Text Symbol
  /-- The functions by their names. -/
  functions : Table Text FuncDecl
  /-- Every call of the unit, with its number of arguments. -/
  calls : List (Text × Nat)

/-- The ids of some variables. -/
abbrev ids (Γ : List Symbol) : List Id := Γ.map (·.id)

/-- The variable that a name stands for among those that can be seen: the innermost of them, or else
one of the unit, whose id no local variable has. -/
inductive Resolves (u : Tables) (Γ : List Symbol) (name : Text) (symbol : Symbol) : Prop
  | visible : Γ.reverse.find? (·.name == name) = some symbol → Resolves u Γ name symbol
  | global : Γ.reverse.find? (·.name == name) = none → u.globals.get? name = some symbol →
    symbol.id ∉ ids Γ → Resolves u Γ name symbol

/-! ## Expressions -/

/-- An expression with what is wanted of it, or several arguments. -/
inductive ExprPiece where
  | one (want : Want) (e : Expr)
  | all (args : List Expr)

/-- The code of the steps `++` and `--`. -/
def stepLayout (operator : Token) (id : Id) (after : Bool) (want : Want) : Code :=
  let load := Instr.withWord .pushVar id
  let op : Opcode := if operator.kind = .decrement then .sub else .add
  let change := load :: literalCode (.ofInt 1) ++ [.plain op, .withWord .popVar id]
  if want = .effect then change
  else if after then fromValue want (load :: change)
  else fromValue want (change ++ [load])

/-- The code of an assignment behind that of its value. -/
def assignLayout (id : Id) (want : Want) (value : Code) : Code :=
  if want = .effect then value ++ [.withWord .popVar id]
  else fromValue want (value ++ [.withWord .popVar id, .withWord .pushVar id])

/-- The code of expressions. -/
inductive ExprCode (u : Tables) (Γ : List Symbol) : ExprPiece → Code → Prop
  /-- A name is read as the variable that it stands for. -/
  | ident {want t symbol} : Resolves u Γ t.text symbol →
    ExprCode u Γ (.one want (.ident t)) (fromValue want [.withWord .pushVar symbol.id])
  /-- A number is pushed as the value of its own shape. -/
  | number {want t v} :
    (Expr.number t).literal ((Expr.number t).literalType?.getD .invalid) = .ok v →
    ExprCode u Γ (.one want (.number t)) (fromValue want (literalCode v))
  /-- A string is pushed as a text. -/
  | string {want opening value} :
    ExprCode u Γ (.one want (.string opening value)) (fromValue want (literalCode (.ofText value)))
  /-- The word for truth. -/
  | true_ {want t} : t.kind = .true →
    ExprCode u Γ (.one want (.word t)) (fromValue want (literalCode (.ofBool true)))
  /-- The word for falsehood. -/
  | false_ {want t} : t.kind = .false →
    ExprCode u Γ (.one want (.word t)) (fromValue want (literalCode (.ofBool false)))
  /-- The null object is a variable of the machine's own. -/
  | null {want t} : t.kind = .null →
    ExprCode u Γ (.one want (.word t)) (fromValue want [.withWord .pushVar Name.nullObject])
  /-- So is the attached object. -/
  | attached {want t} : t.kind = .attached →
    ExprCode u Γ (.one want (.word t)) (fromValue want [.withWord .pushVar Name.attachedObject])
  /-- A minus in front of a number belongs to the number. -/
  | minusNumber {want operator t v} : operator.kind = .minus →
    (Expr.unary operator (.number t)).literal
      ((Expr.unary operator (.number t)).literalType?.getD .invalid) = .ok v →
    ExprCode u Γ (.one want (.unary operator (.number t))) (fromValue want (literalCode v))
  /-- Any other value is subtracted from zero. -/
  | minus {want operator operand code} : operator.kind = .minus → (∀ t, operand ≠ .number t) →
    ExprCode u Γ (.one .value operand) code →
    ExprCode u Γ (.one want (.unary operator operand))
      (fromValue want (literalCode (.ofInt 0) ++ code ++ [.plain .sub]))
  /-- All bits are inverted by an exclusive or. -/
  | tilde {want operator operand code} : operator.kind = .tilde →
    ExprCode u Γ (.one .value operand) code →
    ExprCode u Γ (.one want (.unary operator operand))
      (fromValue want (code ++ literalCode (.ofInt (-1)) ++ [.plain .xor]))
  /-- A negation compares with zero. -/
  | bang {want operator operand code} : operator.kind = .bang →
    ExprCode u Γ (.one .value operand) code →
    ExprCode u Γ (.one want (.unary operator operand)) (fromTruth want (code ++ compareZero .equal))
  /-- A plus has no code, and neither has a sign of any other kind. -/
  | plus {want operator operand code} : operator.kind ≠ .minus → operator.kind ≠ .tilde →
    operator.kind ≠ .bang → ExprCode u Γ (.one .value operand) code →
    ExprCode u Γ (.one want (.unary operator operand)) (fromValue want code)
  /-- The steps in front of a variable and behind it. -/
  | step {want operator target after symbol} : Resolves u Γ target.text symbol →
    ExprCode u Γ (.one want (.step operator target after))
      (stepLayout operator symbol.id after want)
  /-- A comparison leaves its outcome as a compare value. -/
  | relation {want operator left right relation first second} :
    operator.kind.relation? = some relation →
    ExprCode u Γ (.one .value left) first → ExprCode u Γ (.one .value right) second →
    ExprCode u Γ (.one want (.binary operator left right))
      (fromTruth want (first ++ second ++ [.compare relation]))
  /-- The outcome of the left side is saved while that of the right side is computed. -/
  | connective {want operator left right connective first second} :
    operator.kind.relation? = none → operator.kind.connective? = some connective →
    ExprCode u Γ (.one .truth left) first → ExprCode u Γ (.one .truth right) second →
    ExprCode u Γ (.one want (.binary operator left right))
      (fromTruth want (first ++ [.plain .saveCompare] ++ second ++ [.combine connective]))
  /-- An operation takes two values and leaves one. -/
  | arithmetic {want operator left right op first second} : operator.kind.relation? = none →
    operator.kind.connective? = none → operator.kind.arithmetic? = some op →
    ExprCode u Γ (.one .value left) first → ExprCode u Γ (.one .value right) second →
    ExprCode u Γ (.one want (.binary operator left right))
      (fromValue want (first ++ second ++ [.plain op]))
  /-- A plain assignment evaluates the value first. -/
  | assign {want operator target value symbol code} : operator.kind.compound? = none →
    Resolves u Γ target.text symbol → ExprCode u Γ (.one .value value) code →
    ExprCode u Γ (.one want (.assign operator target value)) (assignLayout symbol.id want code)
  /-- A compound one reads the target in front of the value. -/
  | compound {want operator target value symbol op code} : operator.kind.compound? = some op →
    Resolves u Γ target.text symbol → ExprCode u Γ (.one .value value) code →
    ExprCode u Γ (.one want (.assign operator target value))
      (assignLayout symbol.id want (.withWord .pushVar symbol.id :: code ++ [.plain op]))
  /-- An operation on an object takes one argument. -/
  | object {want callee arg op code} : callee.kind.objectOperation? = some op →
    ExprCode u Γ (.all [arg]) code →
    ExprCode u Γ (.one want (.call callee [arg])) (fromValue want (code ++ [.plain op]))
  /-- A call of a function that the tables list, with its arguments on the stack. -/
  | call {want callee args code} : callee.kind.objectOperation? = none →
    (callee.text, args.length) ∈ u.calls →
    (∀ f, u.functions.get? callee.text = some f → f.params.length = args.length) →
    u.names.get? (Name.id callee.text) = some callee.text →
    ExprCode u Γ (.all args) code →
    ExprCode u Γ (.one want (.call callee args))
      (fromValue want (code ++ [.withWord .call (Name.id callee.text)]))
  /-- No arguments. -/
  | nil : ExprCode u Γ (.all []) []
  /-- Arguments from the left to the right. -/
  | cons {e rest first more} : ExprCode u Γ (.one .value e) first → ExprCode u Γ (.all rest) more →
    ExprCode u Γ (.all (e :: rest)) (first ++ more)

/-! ## Statements -/

/-- A variable declared in the innermost block, with the variables of the blocks around it. -/
def localSymbol (function : Text) (outer : List Symbol) (name : Text) (type : VarType) : Symbol :=
  let qualified := SymbolTable.qualifiedName function name (outer.countP (·.name == name))
  ⟨name, qualified, Name.id qualified, type⟩

/-- The code that gives a new variable its initial value. -/
inductive InitCode (u : Tables) (Γ : List Symbol) (symbol : Symbol) : Option Expr → Code → Prop
  /-- Without an initial value the machine's own default stays. -/
  | none : InitCode u Γ symbol none []
  /-- A constant is written into the variable as it is. -/
  | constant {init v} : init.isConstant = true → init.literal symbol.type = .ok v →
    InitCode u Γ symbol (some init) [.set symbol.id v.data]
  /-- Any other initial value is computed and popped into the variable. -/
  | value {init code} : init.isConstant = false → ExprCode u Γ (.one .value init) code →
    InitCode u Γ symbol (some init) (code ++ [.withWord .popVar symbol.id])

/-- The code that leaves a function with a result, freeing some variables. -/
def leaveLayout (returnType : VarType) (result : Code) (freed : List Id) : Code :=
  result ++ freeCode freed ++ (if returnType = .void then literalCode .void else [])
    ++ [.plain .ret]

/-- The code of a return. -/
inductive ReturnCode (u : Tables) (ctx : FunctionContext) (Γ : List Symbol) :
    Option Expr → Code → Prop
  /-- A function without a result frees its variables and returns. -/
  | void : ctx.returnType = .void →
    ReturnCode u ctx Γ none (leaveLayout ctx.returnType [] (ids Γ).reverse)
  /-- A missing result is the zero of the result type. -/
  | zero : ctx.returnType ≠ .void →
    ReturnCode u ctx Γ none
      (leaveLayout ctx.returnType (literalCode (.zero ctx.returnType)) (ids Γ).reverse)
  /-- A constant passes through a variable of its own, which gives it the result type. -/
  | constant {e v} : ctx.returnType ≠ .void → e.isConstant = true →
    e.literal ctx.returnType = .ok v →
    ReturnCode u ctx Γ (some e)
      (leaveLayout ctx.returnType
        [.allocate (UInt64.ofNat v.data.length) ctx.returnType (Name.id (resultName ctx)),
          .set (Name.id (resultName ctx)) v.data, .withWord .pushVar (Name.id (resultName ctx))]
        (Name.id (resultName ctx) :: (ids Γ).reverse))
  /-- Any other result is computed before the variables are freed. -/
  | value {e code} : ctx.returnType ≠ .void → e.isConstant = false →
    ExprCode u Γ (.one .value e) code →
    ReturnCode u ctx Γ (some e) (leaveLayout ctx.returnType code (ids Γ).reverse)

/-- A distance that a relative jump can have. -/
def Reachable (distance : Int) : Prop := -0x8000 ≤ distance ∧ distance < 0x8000

/-- The jump by a distance. -/
def jumpInstr (op : Opcode) (distance : Int) : Instr := .withWord op (Int64.ofInt distance)

/-- The bytes that a failing test skips: the body and the jump behind it. -/
def skipSize (body tail : Code) : Nat :=
  Instr.sizeAll body + (if tail.isEmpty then 0 else relativeJumpSize)

/-- A branch in front of the code behind it. -/
def branchLayout (test body tail : Code) : Code :=
  .plain .setFlag :: test ++ [jumpInstr .jumpIfBy relativeJumpSize]
    ++ [jumpInstr .jumpBy (skipSize body tail)] ++ body
    ++ (if tail.isEmpty then [] else [jumpInstr .jumpBy (Instr.sizeAll tail)]) ++ tail

/-- The distances of a branch. -/
structure BranchFits (body tail : Code) : Prop where
  skip : Reachable (skipSize body tail)
  exit : tail.isEmpty = false → Reachable (Instr.sizeAll tail)

/-- How far the test of a loop jumps back. -/
def backDistance (inner test : Code) : Int :=
  -(Instr.sizeAll inner + 1 + Instr.sizeAll test + relativeJumpSize : Nat)

/-- A loop around its body and step: a `do` loop enters at the body, any other one at the test. -/
def loopLayout (kind : LoopKind) (inner test : Code) : Code :=
  .plain .saveCompare
    :: (if kind = .doWhile then [] else [jumpInstr .jumpBy (Instr.sizeAll inner)]) ++ inner
    ++ (.plain .setFlag :: test ++ [jumpInstr .jumpIfBy (backDistance inner test)])
    ++ [.plain .restoreCompare]

/-- The distances of a loop. -/
structure LoopFits (kind : LoopKind) (inner test : Code) : Prop where
  forward : kind ≠ .doWhile → Reachable (Instr.sizeAll inner)
  back : Reachable (backDistance inner test)

/-- The code of the step of a loop; a `do` loop has none. -/
inductive NextCode (u : Tables) (Γ : List Symbol) (kind : LoopKind) : Option Expr → Code → Prop
  | none {step?} : kind = .doWhile ∨ step? = none → NextCode u Γ kind step? []
  | step {e code} : kind ≠ .doWhile → ExprCode u Γ (.one .effect e) code →
    NextCode u Γ kind (some e) code

/-- A piece of a body that is compiled on its own. -/
inductive StmtPiece where
  | one (s : Stmt)
  | all (body : List Stmt)
  /-- Statements with variables of their own. -/
  | block (body : List Stmt)
  /-- What follows the first branch of an if statement. -/
  | otherwise (rest : Alternatives)
  /-- What a loop starts with. -/
  | start (start : LoopStart)

/-- The code of statements. `outer` are the variables of the blocks around the innermost one, the two
lists `inner` those of the innermost block before and after the piece. -/
inductive StmtCode (u : Tables) (ctx : FunctionContext) :
    (outer inner : List Symbol) → StmtPiece → (inner' : List Symbol) → Code → Prop
  /-- A declaration adds a variable to the innermost block, under an id that no visible variable
  has. -/
  | declare {outer inner d symbol code} : symbol = localSymbol ctx.name outer d.name d.type →
    d.type.Storable → symbol.id ∉ ids (outer ++ inner) →
    InitCode u (outer ++ (inner ++ [symbol])) symbol d.initial? code →
    StmtCode u ctx outer inner (.one (.declare d)) (inner ++ [symbol])
      (.allocate (storageSize d.type d.initial?) d.type symbol.id :: code)
  /-- A return leaves the function. -/
  | return_ {outer inner name t e? code} : ReturnCode u ctx (outer ++ inner) e? code →
    StmtCode u ctx outer inner (.one (.expr name t .return_ e?)) inner code
  /-- A condition on its own is evaluated for its truth. -/
  | truth {outer inner name t e code} : ExprCode u (outer ++ inner) (.one .truth e) code →
    StmtCode u ctx outer inner (.one (.expr name t .condition (some e))) inner code
  /-- Any other expression is evaluated for its effect. -/
  | effect {outer inner name t kind e code} : kind ≠ .return_ → kind ≠ .condition →
    ExprCode u (outer ++ inner) (.one .effect e) code →
    StmtCode u ctx outer inner (.one (.expr name t kind (some e))) inner code
  /-- A statement without an expression has no code. -/
  | nothing {outer inner name t kind} : kind ≠ .return_ →
    StmtCode u ctx outer inner (.one (.expr name t kind none)) inner []
  /-- The compare value is saved around a chain of branches. -/
  | ifElse {outer inner name t condition body rest test code tail} :
    ExprCode u (outer ++ inner) (.one .truth condition) test →
    StmtCode u ctx outer inner (.block body) inner code →
    StmtCode u ctx outer inner (.otherwise rest) inner tail →
    BranchFits code tail →
    StmtCode u ctx outer inner (.one (.ifElse name t condition body rest)) inner
      (.plain .saveCompare :: branchLayout test code tail ++ [.plain .restoreCompare])
  /-- What the loop starts with, the loop around body and step, and the release of what was
  declared. -/
  | loop {outer inner started name t kind condition? step? start body prologue code next test} :
    StmtCode u ctx (outer ++ inner) [] (.start start) started prologue →
    StmtCode u ctx (outer ++ inner) started (.block body) started code →
    NextCode u (outer ++ inner ++ started) kind step? next →
    ExprCode u (outer ++ inner ++ started) (.one .truth (condition?.getD (alwaysTrue t))) test →
    LoopFits kind (code ++ next) test →
    StmtCode u ctx outer inner (.one (.loop name t kind condition? step? start body)) inner
      (prologue ++ loopLayout kind (code ++ next) test ++ freeCode (ids started).reverse)
  /-- No statements. -/
  | nil {outer inner} : StmtCode u ctx outer inner (.all []) inner []
  /-- Statements in a row, the variables of the first ones being visible in the others. -/
  | cons {outer inner inner₁ inner₂ s rest first more} :
    StmtCode u ctx outer inner (.one s) inner₁ first →
    StmtCode u ctx outer inner₁ (.all rest) inner₂ more →
    StmtCode u ctx outer inner (.all (s :: rest)) inner₂ (first ++ more)
  /-- A block frees its variables at its end. -/
  | block {outer inner dropped body code} : endsWithReturn body = false →
    StmtCode u ctx (outer ++ inner) [] (.all body) dropped code →
    StmtCode u ctx outer inner (.block body) inner (code ++ freeCode (ids dropped).reverse)
  /-- Unless its end is never reached. -/
  | leaving {outer inner dropped body code} : endsWithReturn body = true →
    StmtCode u ctx (outer ++ inner) [] (.all body) dropped code →
    StmtCode u ctx outer inner (.block body) inner code
  /-- Nothing behind the last condition. -/
  | otherwiseNone {outer inner} : StmtCode u ctx outer inner (.otherwise .none) inner []
  /-- The last branch is a block. -/
  | otherwise {outer inner name t body code} :
    StmtCode u ctx outer inner (.block body) inner code →
    StmtCode u ctx outer inner (.otherwise (.otherwise name t body)) inner code
  /-- A branch with a condition in front of the rest of the chain. -/
  | elseIf {outer inner name t condition body rest test code tail} :
    ExprCode u (outer ++ inner) (.one .truth condition) test →
    StmtCode u ctx outer inner (.block body) inner code →
    StmtCode u ctx outer inner (.otherwise rest) inner tail →
    BranchFits code tail →
    StmtCode u ctx outer inner (.otherwise (.elseIf name t condition body rest)) inner
      (branchLayout test code tail)
  /-- A loop that starts with nothing. -/
  | startNothing {outer inner} : StmtCode u ctx outer inner (.start .nothing) inner []
  /-- A loop that starts with a variable of its own. -/
  | startDeclare {outer inner inner' d code} :
    StmtCode u ctx outer inner (.one (.declare d)) inner' code →
    StmtCode u ctx outer inner (.start (.declare d)) inner' code
  /-- A loop that starts with an expression. -/
  | startEvaluate {outer inner e code} : ExprCode u (outer ++ inner) (.one .effect e) code →
    StmtCode u ctx outer inner (.start (.evaluate e)) inner code

/-! ## Functions -/

/-- The parameters of a function as variables. -/
inductive ParamSymbols (function : Text) : (before : List Symbol) → List Param → List Symbol → Prop
  | nil {before} : ParamSymbols function before [] []
  | cons {before p rest symbol more} : symbol = localSymbol function [] p.name p.type →
    p.type.Storable → symbol.id ∉ ids before →
    ParamSymbols function (before ++ [symbol]) rest more →
    ParamSymbols function before (p :: rest) (symbol :: more)

/-- The code of a function with a body. -/
inductive FunctionCode (u : Tables) (f : FuncDecl) (body : List Stmt) : Code → Prop
  | falling {params inner code exit} : endsWithReturn body = false →
    ParamSymbols f.name [] f.params params →
    StmtCode u ⟨f.name, f.returnType⟩ [] params (.all body) inner code →
    ReturnCode u ⟨f.name, f.returnType⟩ inner none exit →
    FunctionCode u f body (prologue params ++ code ++ exit)
  | returning {params inner code} : endsWithReturn body = true →
    ParamSymbols f.name [] f.params params →
    StmtCode u ⟨f.name, f.returnType⟩ [] params (.all body) inner code →
    FunctionCode u f body (prologue params ++ code)

end Gen

end TickScript
