import TickScript.Proofs.Codegen.Unbroken

/-!
# The stages of a compilation

Directives, declarations and code generation are all faithful: none of them looks at the log. A unit
for which a script comes out has therefore gone through three clean runs, whatever kind of log it
was compiled with; `compile_clean` is where every proof about accepted sources starts.

The lemmas follow the definitions one by one and add nothing to them, which is their purpose: with
each stage known to be faithful, a statement about accepted sources never has to speak of a log
again. The stages of the generator are only shown to be attentive here, since a single one of them
may break down in a state that never occurs; `Proofs.Codegen.Unbroken` shows that a whole unit does
not.
-/

namespace TickScript

open Stage

/-! ## Directives -/

namespace Macros

@[grind .] theorem faithful_expand (tokens : List Token) : Faithful (expand tokens) := by
  unfold expand
  grind

@[grind .] theorem faithful_read (ctx : MacroContext) (path : Text) : Faithful (read ctx path) := by
  unfold read
  grind

@[grind .] theorem faithful_firstReadable (ctx : MacroContext) (paths : List Text) :
    Faithful (firstReadable ctx paths) := by
  induction paths with
  | nil => exact faithful_pure _
  | cons path rest ih =>
      unfold firstReadable
      grind

@[grind .] theorem faithful_define (hash : Token) (operands : List Token) :
    Faithful (define hash operands) := by
  unfold define
  grind

@[grind .] theorem faithful_undefine (hash : Token) (operands : List Token) :
    Faithful (undefine hash operands) := by
  unfold undefine
  grind

section

variable (ctx : MacroContext) {process : FileReader}
  (hprocess : ∀ file source, Faithful (process file source))

include hprocess

/-- An included file is read by the reader that is passed on, faithful by hypothesis. -/
theorem faithful_includeFile (file : Text) (path : Token) :
    Faithful (includeFile ctx process file path) := by
  unfold includeFile
  refine faithful_bind (faithful_firstReadable _ _) fun found? => ?_
  split
  · grind
  · refine faithful_bind faithful_get fun s => ?_
    grind

theorem faithful_directive (file : Text) (hash : Token) (operands : List Token) :
    Faithful (directive ctx process file hash operands) := by
  have hinclude := faithful_includeFile ctx hprocess file
  unfold directive
  grind

/-- Lines in a row, each in the state that the last one left. -/
theorem faithful_processLines (file : Text) (lines : List (List Token)) :
    Faithful (processLines ctx process file lines) := by
  have hdirective := faithful_directive ctx hprocess file
  induction lines with
  | nil =>
      unfold processLines
      exact faithful_pure _
  | cons line rest ih =>
      unfold processLines
      grind

theorem faithful_processWith (file source : Text) :
    Faithful (processWith ctx process file source) := by
  have hlines := faithful_processLines ctx hprocess file
  unfold processWith
  grind

end

/-- By induction on the fuel: each level is faithful if the level below is. -/
@[grind .] theorem faithful_processFile (ctx : MacroContext) (fuel : Nat) (file source : Text) :
    Faithful (processFile ctx fuel file source) := by
  induction fuel generalizing file source with
  | zero => exact faithful_processWith ctx (fun _ _ => faithful_pure _) file source
  | succ fuel ih => exact faithful_processWith ctx ih file source

theorem faithful_processAll (ctx : MacroContext) (sources : List Source) :
    Faithful (processAll ctx sources) := by
  induction sources with
  | nil => exact faithful_pure _
  | cons source rest ih =>
      unfold processAll
      grind

end Macros

/-! ## Code -/

namespace Gen

@[grind .] theorem attentive_register (t : Token) (id : Id) (name : Text) :
    Attentive (register t id name) := by
  unfold register
  grind

@[grind .] theorem attentive_declareLocal (name : Text) (type : VarType) :
    Attentive (declareLocal name type) := by
  unfold declareLocal
  grind

@[grind .] theorem attentive_enter : Attentive enter := attentive_modify _

@[grind .] theorem attentive_leave : Attentive leave := by
  unfold leave
  grind

@[grind .] theorem attentive_resolve (t : Token) : Attentive (resolve t) := by
  unfold resolve
  grind

@[grind .] theorem attentive_jump (t : Token) (op : Opcode) (distance : Int) :
    Attentive (jump t op distance) := by
  unfold jump
  grind

@[grind .] theorem attentive_literalOf (e : Expr) (type : VarType) :
    Attentive (literalOf e type) := by
  unfold literalOf
  grind

@[grind .] theorem attentive_literalValue (e : Expr) : Attentive (literalValue e) := by
  unfold literalValue
  grind

@[grind .] theorem attentive_wordValue (t : Token) : Attentive (wordValue t) := by
  unfold wordValue
  grind

@[grind .] theorem attentive_stepCode (operator target : Token) (after : Bool) (want : Want) :
    Attentive (stepCode operator target after want) := by
  unfold stepCode
  grind

@[grind .] theorem attentive_fits (name : Text) (e : Expr) (type : VarType) :
    Attentive (fits name e type) := by
  unfold fits
  grind

@[grind .] theorem attentive_calledFunction (callee : Token) (count : Nat) :
    Attentive (calledFunction callee count) := by
  unfold calledFunction
  grind

@[grind .] theorem attentive_checkArgument (f? : Option FuncDecl) (index : Nat) (e : Expr) :
    Attentive (checkArgument f? index e) := by
  unfold checkArgument
  grind

mutual

/-- By recursion over the expression; every stage that it is made of is attentive. -/
theorem attentive_expr (want : Want) : (e : Expr) → Attentive (expr want e)
  | .ident t => by unfold expr; grind
  | .number t => by unfold expr; grind
  | .string opening value => by unfold expr; grind
  | .word t => by unfold expr; grind
  | .unary operator operand => by
      have ih := attentive_expr .value operand
      unfold expr
      grind
  | .step operator target after => by unfold expr; grind
  | .binary operator left right => by
      have hleft (want : Want) := attentive_expr want left
      have hright (want : Want) := attentive_expr want right
      unfold expr
      grind
  | .assign operator target value => by
      have ih := attentive_expr .value value
      unfold expr
      grind
  | .call callee args => by
      have ih (f? : Option FuncDecl) := attentive_arguments f? 0 args
      unfold expr
      grind
  | .index target subscript => by unfold expr; grind

theorem attentive_arguments (f? : Option FuncDecl) (index : Nat) :
    (args : List Expr) → Attentive (arguments f? index args)
  | [] => by unfold arguments; grind
  | e :: rest => by
      have hfirst := attentive_expr .value e
      have hrest := attentive_arguments f? (index + 1) rest
      unfold arguments
      grind

end

attribute [grind .] attentive_expr attentive_arguments

@[grind .] theorem attentive_initialise (symbol : Symbol) (init : Expr) :
    Attentive (initialise symbol init) := by
  unfold initialise
  grind

/-- What follows the introduction of a local reports at its token. -/
theorem attentive_declared (d : VarDecl) :
    Attentive (declareLocal d.name d.type >>= fun (symbol, fresh) => do
      if !fresh then report d.token (.redeclaredInBlock d.name)
      register d.token symbol.id symbol.qualified
      match d.initial? with
      | none => return (symbol, [Instr.allocate (storageSize d.type d.initial?) d.type symbol.id])
      | some init =>
        return (symbol, Instr.allocate (storageSize d.type d.initial?) d.type symbol.id
          :: (← initialise symbol init))) := by
  grind

@[grind .] theorem attentive_localVar (d : VarDecl) : Attentive (localVar d) := by
  unfold localVar
  refine attentive_bind attentive_get fun s => ?_
  have hdeclared := attentive_declared d
  grind

@[grind .] theorem attentive_leaveFunction (ctx : FunctionContext) (result : Code) (extra : List Id) :
    Attentive (leaveFunction ctx result extra) := by
  unfold leaveFunction
  grind

@[grind .] theorem attentive_returnCode (ctx : FunctionContext) (t : Token) (e? : Option Expr) :
    Attentive (returnCode ctx t e?) := by
  unfold returnCode
  grind

@[grind .] theorem attentive_branchCode (t : Token) (test body tail : Code) :
    Attentive (branchCode t test body tail) := by
  unfold branchCode
  grind

@[grind .] theorem attentive_layBranches (tail : Code) (branches : List Branch) :
    Attentive (layBranches tail branches) := by
  induction branches with
  | nil => exact attentive_pure _
  | cons b rest ih =>
      unfold layBranches
      grind

@[grind .] theorem attentive_loopTest (t : Token) (condition : Expr) (body : Nat) :
    Attentive (loopTest t condition body) := by
  unfold loopTest
  grind

@[grind .] theorem attentive_startCode (start : LoopStart) : Attentive (startCode start) := by
  unfold startCode
  grind

@[grind .] theorem attentive_loopCode (t : Token) (kind : LoopKind) (condition : Expr)
    (step? : Option Expr) (inner : Code) : Attentive (loopCode t kind condition step? inner) := by
  unfold loopCode
  grind

@[grind .] theorem attentive_releaseCode (started? : Option Symbol) :
    Attentive (releaseCode started?) := by
  unfold releaseCode
  grind

/-- A block is entered and left around its code. -/
@[grind ←] theorem attentive_inBlock (body : List Stmt) {code : Gen Code} (h : Attentive code) :
    Attentive (inBlock body code) := by
  unfold inBlock
  grind

mutual

/-- By recursion over the statement, together with bodies and branches. -/
theorem attentive_stmt (ctx : FunctionContext) : (s : Stmt) → Attentive (stmt ctx s)
  | .declare d => by unfold stmt; grind
  | .expr name t kind value? => by unfold stmt; grind
  | .ifElse name t condition body rest => by
      have hbody := attentive_stmts ctx body
      have helse := attentive_elseCode ctx rest
      have hbranches := attentive_branches ctx rest
      unfold stmt
      grind
  | .loop name t kind condition? step? start body => by
      have hbody := attentive_stmts ctx body
      unfold stmt
      grind

theorem attentive_stmts (ctx : FunctionContext) : (body : List Stmt) → Attentive (stmts ctx body)
  | [] => by unfold stmts; grind
  | s :: rest => by
      have hfirst := attentive_stmt ctx s
      have hrest := attentive_stmts ctx rest
      unfold stmts
      grind

theorem attentive_elseCode (ctx : FunctionContext) :
    (rest : Alternatives) → Attentive (elseCode ctx rest)
  | .none => by unfold elseCode; grind
  | .otherwise name t body => by
      have hbody := attentive_stmts ctx body
      unfold elseCode
      grind
  | .elseIf name t condition body rest => by
      have hrest := attentive_elseCode ctx rest
      unfold elseCode
      grind

theorem attentive_branches (ctx : FunctionContext) :
    (rest : Alternatives) → Attentive (branches ctx rest)
  | .none => by unfold branches; grind
  | .otherwise name t body => by unfold branches; grind
  | .elseIf name t condition body rest => by
      have hbody := attentive_stmts ctx body
      have hrest := attentive_branches ctx rest
      unfold branches
      grind

end

attribute [grind .] attentive_stmt attentive_stmts

@[grind .] theorem attentive_declareFunction (f : FuncDecl) : Attentive (declareFunction f) := by
  unfold declareFunction
  grind

@[grind .] theorem attentive_declareVariable (d : VarDecl) : Attentive (declareVariable d) := by
  unfold declareVariable
  grind

@[grind .] theorem attentive_declareAll (program : List Decl) : Attentive (declareAll program) := by
  induction program with
  | nil => exact attentive_pure _
  | cons d rest ih =>
      unfold declareAll
      grind

@[grind .] theorem attentive_variableSection (kind : SectionKind) (d : VarDecl) :
    Attentive (variableSection kind d) := by
  unfold variableSection
  grind

@[grind .] theorem attentive_declareParams (params : List Param) :
    Attentive (declareParams params) := by
  induction params with
  | nil => exact attentive_pure _
  | cons p rest ih =>
      unfold declareParams
      grind

@[grind .] theorem attentive_functionCode (f : FuncDecl) (body : List Stmt) :
    Attentive (functionCode f body) := by
  unfold functionCode
  grind

@[grind .] theorem attentive_declSection (d : Decl) : Attentive (declSection d) := by
  unfold declSection
  grind

@[grind .] theorem attentive_sections (program : List Decl) : Attentive (sections program) := by
  induction program with
  | nil => exact attentive_pure _
  | cons d rest ih =>
      unfold sections
      grind

end Gen

/-! ## Declarations and statements -/

namespace Parsing

@[grind .] theorem faithful_unterminated (content : List Token) (t : Token) (cause : Cause) :
    Faithful (unterminated content t cause) := by
  unfold unterminated
  grind

@[grind .] theorem faithful_expect (ctx : ParseContext) (kind : TokenKind) (tokens : List Token) :
    Faithful (expect ctx kind tokens) := by
  unfold expect
  grind

@[grind .] theorem faithful_expression (ctx : ParseContext) (tokens : List Token) :
    Faithful (expression ctx tokens) := by
  unfold expression
  grind

@[grind .] theorem faithful_freshName (ctx : ParseContext) (kind : String) :
    Faithful (freshName ctx kind) := by
  unfold freshName
  grind

@[grind .] theorem faithful_statementTokens (start : Token) (tokens : List Token) :
    Faithful (statementTokens start tokens) := by
  unfold statementTokens
  grind

@[grind .] theorem faithful_declParts (ctx : ParseContext) (type : Token) (content : List Token) :
    Faithful (declParts ctx type content) := by
  unfold declParts
  grind

@[grind .] theorem faithful_declTail (ctx : ParseContext) (type : Token) (tokens : List Token) :
    Faithful (declTail ctx type tokens) := by
  unfold declTail
  grind

@[grind .] theorem faithful_variable (ctx : ParseContext) (type : Token) (tokens : List Token) :
    Faithful (variable_ ctx type tokens) := by
  unfold variable_
  grind

@[grind .] theorem faithful_typedVariable (ctx : ParseContext) (type : Token)
    (tokens : List Token) : Faithful (typedVariable ctx (type :: tokens)) :=
  faithful_variable ctx type tokens

@[grind .] theorem faithful_return (ctx : ParseContext) (word : Token) (tokens : List Token) :
    Faithful (return_ ctx word tokens) := by
  unfold return_
  grind

@[grind .] theorem faithful_exprStatement (ctx : ParseContext) (start : Token)
    (tokens : List Token) : Faithful (exprStatement ctx start tokens) := by
  unfold exprStatement
  grind

@[grind .] theorem faithful_condition (ctx : ParseContext) (word : Token) (tokens : List Token) :
    Faithful (condition ctx word tokens) := by
  unfold condition
  grind

@[grind .] theorem faithful_forStart (ctx : ParseContext) (init : List Token) :
    Faithful (forStart ctx init) := by
  unfold forStart
  grind

@[grind .] theorem faithful_optionalExpression (ctx : ParseContext) (tokens : List Token) :
    Faithful (optionalExpression ctx tokens) := by
  unfold optionalExpression
  grind

@[grind .] theorem faithful_forHeader (ctx : ParseContext) (init cond step : List Token) :
    Faithful (forHeader ctx init cond step) := by
  unfold forHeader
  grind

/-- The readers of statements with some fuel are faithful. -/
structure FaithfulReaders (fuel : Nat) : Prop where
  statements : ∀ ctx tokens, Faithful (statements ctx fuel tokens)
  statement : ∀ ctx tokens, Faithful (statement ctx fuel tokens)
  branchBody : ∀ ctx word tokens, Faithful (branchBody ctx fuel word tokens)
  branch : ∀ ctx word tokens, Faithful (branch ctx fuel word tokens)
  doLoop : ∀ ctx word tokens, Faithful (doLoop ctx fuel word tokens)
  whileLoop : ∀ ctx word tokens, Faithful (whileLoop ctx fuel word tokens)
  forLoop : ∀ ctx word tokens, Faithful (forLoop ctx fuel word tokens)

theorem faithfulReaders (fuel : Nat) : FaithfulReaders fuel := by
  -- a reader that has run out of fuel answers with nothing, and the others only call readers with
  -- less fuel
  induction fuel with
  | zero =>
      constructor
      · intro ctx tokens
        unfold statements
        exact faithful_pure _
      · intro ctx tokens
        unfold statement
        exact faithful_pure _
      · intro ctx word tokens
        unfold branchBody
        exact faithful_pure _
      · intro ctx word tokens
        unfold branch
        exact faithful_pure _
      · intro ctx word tokens
        unfold doLoop
        exact faithful_pure _
      · intro ctx word tokens
        unfold whileLoop
        exact faithful_pure _
      · intro ctx word tokens
        unfold forLoop
        exact faithful_pure _
  | succ fuel ih =>
      obtain ⟨hstatements, hstatement, hbody, hbranch, hdo, hwhile, hfor⟩ := ih
      constructor
      · intro ctx tokens
        cases tokens with
        | nil => unfold statements; grind
        | cons t rest => unfold statements; grind
      · intro ctx tokens
        cases tokens with
        | nil => unfold statement; grind
        | cons t rest =>
            unfold statement
            grind
      · intro ctx word tokens
        unfold branchBody
        grind
      · intro ctx word tokens
        unfold branch
        refine faithful_bind (faithful_condition ctx word tokens) fun found => ?_
        split
        · grind
        · refine faithful_bind (hbody _ _ _) fun body => ?_
          grind
      · intro ctx word tokens
        unfold doLoop
        refine faithful_bind (faithful_freshName _ _) fun name => ?_
        refine faithful_bind (hbody _ _ _) fun body => ?_
        refine faithful_bind (faithful_expect _ _ _) fun found => ?_
        split
        · grind
        · grind
      · intro ctx word tokens
        unfold whileLoop
        grind
      · intro ctx word tokens
        unfold forLoop
        refine faithful_bind (faithful_freshName _ _) fun name => ?_
        refine faithful_bind (faithful_expect _ _ _) fun found => ?_
        split
        · grind
        · grind

/-- The body of a function is read with the fuel that its tokens allow. -/
@[grind .] theorem faithful_body (function : Text) (tokens : List Token) :
    Faithful (body function tokens) :=
  (faithfulReaders _).statements _ _

@[grind .] theorem faithful_parameters (word name : Token) (parts : List (List Token)) :
    Faithful (parameters word name parts) := by
  induction parts with
  | nil => exact faithful_pure _
  | cons part rest ih =>
      unfold parameters
      grind

@[grind .] theorem faithful_returnType (ctx : ParseContext) (tokens : List Token) :
    Faithful (returnType ctx tokens) := by
  unfold returnType
  grind

@[grind .] theorem faithful_functionEnd (ctx : ParseContext) (announced : FuncDecl)
    (tokens : List Token) : Faithful (functionEnd ctx announced tokens) := by
  unfold functionEnd
  grind

@[grind .] theorem faithful_functionTail (ctx : ParseContext) (word name : Token)
    (params : List Param) (tokens : List Token) :
    Faithful (functionTail ctx word name params tokens) := by
  unfold functionTail
  grind

@[grind .] theorem faithful_function (ctx : ParseContext) (word : Token) (tokens : List Token) :
    Faithful (function ctx word tokens) := by
  unfold function
  split
  · grind
  · split
    · grind
    · refine faithful_bind (faithful_expect _ _ _) fun found => ?_
      grind

@[grind .] theorem faithful_field (ctx : ParseContext) (word : Token) (tokens : List Token) :
    Faithful (field ctx word tokens) := by
  unfold field
  grind

@[grind .] theorem faithful_declaration (ctx : ParseContext) (t : Token) (rest : List Token) :
    Faithful (declaration ctx t rest) := by
  unfold declaration
  grind

/-- By induction on the fuel, one declaration after the other. -/
@[grind .] theorem faithful_declarations (ctx : ParseContext) (fuel : Nat) (tokens : List Token) :
    Faithful (declarations ctx fuel tokens) := by
  induction fuel generalizing tokens with
  | zero =>
      unfold declarations
      exact faithful_pure _
  | succ fuel ih =>
      unfold declarations
      grind

theorem faithful_program (tokens : List Token) : Faithful (program tokens) :=
  faithful_declarations _ _ _

end Parsing

/-! ## Whole units -/

/-- The last stage of a unit for which a script comes out. -/
theorem compileProgram_clean {options : CompileOptions} {log : Log} {dependencies : List Text}
    {program : List Decl} {script : Script}
    (h : (compileProgram options log dependencies program).script? = some script) :
    log.entries = [] ∧ ∃ final, Clean (Gen.generate program) {} script.sections final
      ∧ (compileProgram options log dependencies program).names = final.names
      ∧ (compileProgram options log dependencies program).program = program := by
  simp only [compileProgram] at h ⊢
  split at h
  · cases h
  · next sections final log' hrun =>
      split at h
      · next hempty =>
          obtain ⟨hlog, hclean⟩ :=
            (Gen.faithful_generate program).clean hrun (by simpa using hempty)
          obtain rfl := Option.some.inj h
          refine ⟨hlog, final, hclean, ?_⟩
          simp only [and_self]
      · cases h

/-- A script comes out only of clean runs of all stages. -/
theorem compile_clean {store : FileStore} {options : CompileOptions} {sources : List Macros.Source}
    {history : List Text} {script : Script}
    (h : (compile store options sources history).script? = some script) :
    ∃ tokens, (∃ s, Clean (Macros.processAll ⟨store, options.includePaths⟩ sources) { history }
        tokens s)
      ∧ (∃ s, Clean (Parsing.program tokens) {} (compile store options sources history).program s)
      ∧ ∃ final, Clean (Gen.generate (compile store options sources history).program) {}
        script.sections final ∧ (compile store options sources history).names = final.names := by
  simp only [compile] at h ⊢
  split at h
  · cases h
  · next tokens state log hmacros =>
      simp only [compileTokens] at h ⊢
      split at h
      · cases h
      · next program parsed log' hparse =>
          obtain ⟨hlog', final, hgenerated, hnames, hprogram⟩ := compileProgram_clean h
          obtain ⟨hlog, hparsed⟩ := (Parsing.faithful_program tokens).clean hparse hlog'
          obtain ⟨-, hmacros⟩ := (Macros.faithful_processAll _ sources).clean hmacros hlog
          simp only [hprogram]
          exact ⟨tokens, ⟨state, hmacros⟩, ⟨parsed, hparsed⟩, final, hgenerated, hnames⟩

end TickScript
