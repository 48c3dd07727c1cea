import TickScript.Codegen.Stmt
import TickScript.Macro
import TickScript.Stmt.Parser

/-!
# Compiling a unit

A unit is compiled in three stages: its sources are tokenized and their directives run, the tokens
are read as declarations, and every declaration becomes a section. All names are declared before any
code is generated, so the order of declarations does not matter. A script comes out exactly when no
stage reported anything.
-/

namespace TickScript

namespace Gen

/-! ## Declarations -/

/-- Whether two functions agree in their types. -/
def sameTypes (f g : FuncDecl) : Bool :=
  f.returnType = g.returnType && f.params.map (·.type) = g.params.map (·.type)

/-- Declares a function. It may be announced any number of times but defined only once. -/
def declareFunction (f : FuncDecl) : Gen Unit := do
  let s ← get
  if s.globals.has f.name then report f.token (.redeclaredAsFunction f.name)
  else match s.functions.get? f.name with
    | none =>
      register f.token f.id f.name
      modify fun s => { s with functions := s.functions.set f.name f }
    | some earlier =>
      if earlier.body?.isSome && f.body?.isSome then report f.token (.redefined f.name)
      else if !sameTypes earlier f then report f.token (.conflicting f.name)
      else if f.body?.isSome then
        modify fun s => { s with functions := s.functions.set f.name f }

/-- Declares a field or a variable. -/
def declareVariable (d : VarDecl) : Gen Unit := do
  let s ← get
  if s.globals.has d.name || s.functions.has d.name then report d.token (.redeclared d.name)
  else
    register d.token d.id d.name
    modify fun s => { s with globals := s.globals.set d.name ⟨d.name, [], d.id, d.type⟩ }

/-- Declares everything that a unit declares. -/
def declareAll : List Decl → Gen Unit
  | [] => return
  | d :: rest => do
    match d with
    | .field v => declareVariable v
    | .var v => declareVariable v
    | .function f => declareFunction f
    declareAll rest

/-! ## Sections -/

/-- The section of a field or variable, whose initial value must be a constant. -/
def variableSection (kind : SectionKind) (d : VarDecl) : Gen (Option Section) := do
  let made (v : Value) : Option Section := some ⟨kind, d.id, v.toPayload⟩
  match d.initial? with
  | none => return made (.zero d.type)
  | some init =>
    if init.isNull && d.type = .object then return made (.zero d.type)
    else if init.isConstant then
      match ← literalOf init d.type with
      | .ok v => return made v
      | .error error =>
        report init.position (.badInitializer d.name error)
        return none
    else
      report init.position (.initializerNotLiteral kind d.name)
      return none

/-- Declares the parameters of a function. -/
def declareParams : List Param → Gen (List Symbol)
  | [] => return []
  | p :: rest => do
    let (symbol, fresh) ← declareLocal p.name p.type
    if !fresh then report p.token (.duplicateParameter p.name)
    register p.token symbol.id symbol.qualified
    return symbol :: (← declareParams rest)

/-- The code that takes the arguments from the stack, the last one first. -/
def prologue (params : List Symbol) : Code :=
  params.reverse.flatMap fun p =>
    [.allocate (storageSize p.type none) p.type p.id, .withWord .popVar p.id]

/-- The code of a function. -/
def functionCode (f : FuncDecl) (body : List Stmt) : Gen Code := do
  modify fun s => { s with scope := ⟨f.name, [], []⟩ }
  let ctx : FunctionContext := ⟨f.name, f.returnType⟩
  let params ← declareParams f.params
  let code ← stmts ctx body
  let exit ← if endsWithReturn body then pure [] else returnCode ctx f.token none
  return prologue params ++ code ++ exit

/-- The section of a declaration; an announced function has none. -/
def declSection : Decl → Gen (Option Section)
  | .field d => variableSection .field d
  | .var d => variableSection .var d
  | .function f => do
    match f.body? with
    | none => return none
    | some body =>
      let code ← functionCode f body
      let stored : FunctionBody := ⟨UInt8.ofNat f.params.length, f.returnType, Instr.encodeAll code⟩
      return some ⟨.function, f.id, stored.toPayload⟩

/-- The sections of some declarations. -/
def sections : List Decl → Gen (List Section)
  | [] => return []
  | d :: rest => do
    let first ← declSection d
    return first.toList ++ (← sections rest)

/-- The sections of a unit. -/
def generate (program : List Decl) : Gen (List Section) := do
  declareAll program
  sections program

end Gen

/-- What a library built from a program offers: every declaration with a section. -/
def exportsOf (program : List Decl) : List Export :=
  program.filterMap fun
    | .field d => some ⟨d.name, d.id, .field⟩
    | .var d => some ⟨d.name, d.id, .var⟩
    | .function f => if f.body?.isSome then some ⟨f.name, f.id, .function⟩ else none

/-- How a unit is compiled. -/
structure CompileOptions where
  /-- Whether the first diagnostic ends the compilation. -/
  strict : Bool := false
  /-- Where includes are looked up besides the including file. -/
  includePaths : List Text := []
  /-- Whether the result is a library. -/
  library : Bool := false

/-- What a compilation leaves. The parts behind the stage that stopped are missing. -/
structure Compiled where
  script? : Option Script := none
  program : List Decl := []
  names : Names := []
  dependencies : List Text := []
  diagnostics : List Diagnostic := []
  /-- The step at which the compiler broke down. -/
  breakdown? : Option Breakdown := none

/-- Runs the last stage. -/
def compileProgram (options : CompileOptions) (log : Log) (dependencies : List Text)
    (program : List Decl) : Compiled :=
  match ((Gen.generate program).run {}).run log with
  | .error stopped log =>
    { program, dependencies, diagnostics := log.diagnostics, breakdown? := stopped.breakdown? }
  | .ok (sections, state) log =>
    let library? : Option ExportTable :=
      if options.library then some ⟨some (exportsOf program), some dependencies⟩ else none
    let script? : Option Script :=
      if log.entries.isEmpty then some { sections, library? } else none
    { script?, program, names := state.names, dependencies, diagnostics := log.diagnostics }

/-- Runs the last two stages. -/
def compileTokens (options : CompileOptions) (log : Log) (dependencies : List Text)
    (tokens : List Token) : Compiled :=
  match ((Parsing.program tokens).run {}).run log with
  | .error stopped log =>
    { dependencies, diagnostics := log.diagnostics, breakdown? := stopped.breakdown? }
  | .ok (program, _) log => compileProgram options log dependencies program

/-- Compiles sources as one unit. `history` lists what was read from the store before. -/
def compile (store : FileStore) (options : CompileOptions) (sources : List Macros.Source)
    (history : List Text := []) : Compiled :=
  let ctx : MacroContext := ⟨store, options.includePaths⟩
  match ((Macros.processAll ctx sources).run { history }).run { strict := options.strict } with
  | .error stopped log => { diagnostics := log.diagnostics, breakdown? := stopped.breakdown? }
  | .ok (tokens, state) log => compileTokens options log state.dependencies.reverse tokens

/-- A source file that cannot be read. -/
structure UnreadableSource where
  path : Text
  fault : ReadFault
deriving DecidableEq, Repr

/-- The wording of an unreadable source. -/
def UnreadableSource.message (u : UnreadableSource) : Text :=
  "reading " ++ u.path ++ ": " ++ u.fault.message

/-- Reads source files. Answers the sources and what was read, last first. -/
def readSources (store : FileStore) (history : List Text) :
    List Text → Except UnreadableSource (List Macros.Source × List Text)
  | [] => .ok ([], history)
  | path :: rest =>
    match store.read history path with
    | .error fault => .error ⟨path, fault⟩
    | .ok text => do
      let (more, history) ← readSources store (store.absolute path :: history) rest
      return (⟨path, text⟩ :: more, history)

/-- Compiles files as one unit. -/
def compileFiles (store : FileStore) (options : CompileOptions) (paths : List Text) :
    Except UnreadableSource Compiled := do
  let (sources, history) ← readSources store [] paths
  return compile store options sources history

end TickScript
