import TickScript.Proofs.Unit

/-!
# The names of a unit

Code knows variables and functions by ids alone, and an id is a hash, so nothing but the table of
names keeps two names apart. `unitNames` lists every name that a unit puts into sections and code,
read off its source: what it declares, its parameters, its local variables with their marks, the
variables that hold constant results and the functions that it calls. A clean run registers all of
them (`generate_registers`), so no two of them share an id.

Variables are registered by the statements that make them, so their names are followed through the
run of the generator. Calls need no second look at the run: the rules of code say that a callee is
registered.

The two parts have different inductions. For calls it is one over the rules of `ExprCode` and
`StmtCode`, which name the callee of each call. For variables it is one over the statements, with
the clean runs that belong to them, because the name of a variable depends on what can be seen where
it is declared. An `if` is where the two orders differ: its last branch is compiled before the
others, so `alternatives_registers` has to carry names over the runs in between; that works since
names are only added to the table.
-/

namespace TickScript

/-! ## Names in a source -/

/-- The name of a variable behind its id, declared inside of blocks with the variables `outer`. -/
def localName (function : Text) (outer : List Text) (name : Text) : Text :=
  SymbolTable.qualifiedName function name (outer.count name)

/-- The variables that the start of a loop adds. -/
def LoopStart.added : LoopStart → List Text
  | .declare d => [d.name]
  | _ => []

/-- The variables that a statement adds to its block. -/
def Stmt.added : Stmt → List Text
  | .declare d => [d.name]
  | _ => []

mutual

/-- The names behind the ids of the variables that a statement makes. It stands in a block with the
variables `inner`, inside of blocks with the variables `outer`. -/
def Stmt.localNames (function : Text) (outer inner : List Text) : Stmt → List Text
  | .declare d => [localName function outer d.name]
  | .expr _ _ kind value? =>
    -- a constant result waits in a variable of its own while the others are freed
    if kind = .return_ ∧ value?.any (·.isConstant) then [Name.qualified function "$return"] else []
  | .ifElse _ _ _ body rest =>
    Stmt.allLocalNames function (outer ++ inner) [] body ++ rest.localNames function outer inner
  | .loop _ _ _ _ _ start body =>
    -- the start has a block of its own, and the body stands in another one inside of it
    start.added.map (localName function (outer ++ inner))
      ++ Stmt.allLocalNames function (outer ++ inner ++ start.added) [] body

/-- The names behind the ids of the variables that statements in a row make. -/
def Stmt.allLocalNames (function : Text) (outer inner : List Text) : List Stmt → List Text
  | [] => []
  | s :: rest =>
    s.localNames function outer inner
      ++ Stmt.allLocalNames function outer (inner ++ s.added) rest

/-- The names behind the ids of the variables that the branches behind the first one make. -/
def Alternatives.localNames (function : Text) (outer inner : List Text) : Alternatives → List Text
  | .none => []
  | .otherwise _ _ body => Stmt.allLocalNames function (outer ++ inner) [] body
  | .elseIf _ _ _ body rest =>
    Stmt.allLocalNames function (outer ++ inner) [] body ++ rest.localNames function outer inner

end

/-- The expressions that a loop starts with. -/
def LoopStart.exprs : LoopStart → List Expr
  | .nothing => []
  | .declare d => d.initial?.toList
  | .evaluate e => [e]

mutual

/-- The expressions of a statement that become code; the step of a `do` loop never does. -/
def Stmt.exprs : Stmt → List Expr
  | .declare d => d.initial?.toList
  | .expr _ _ _ value? => value?.toList
  | .ifElse _ _ condition body rest => condition :: Stmt.allExprs body ++ rest.exprs
  | .loop _ _ kind condition? step? start body =>
    condition?.toList ++ (if kind = .doWhile then [] else step?.toList) ++ start.exprs
      ++ Stmt.allExprs body

/-- The expressions of some statements that become code. -/
def Stmt.allExprs : List Stmt → List Expr
  | [] => []
  | s :: rest => s.exprs ++ Stmt.allExprs rest

/-- The expressions of the branches behind the first one that become code. -/
def Alternatives.exprs : Alternatives → List Expr
  | .none => []
  | .otherwise _ _ body => Stmt.allExprs body
  | .elseIf _ _ condition body rest => condition :: Stmt.allExprs body ++ rest.exprs

end

/-- The functions that an expression calls. -/
def Expr.called (e : Expr) : List Text := e.callSites.map (·.1)

/-- The names that the body of a function puts into its code. -/
def FuncDecl.bodyNames (f : FuncDecl) (body : List Stmt) : List Text :=
  f.params.map (localName f.name [] ·.name)
    ++ Stmt.allLocalNames f.name [] (f.params.map (·.name)) body
    ++ (Stmt.allExprs body).flatMap Expr.called

/-- The names that a declaration puts into code. -/
def Decl.bodyNames : Decl → List Text
  | .function f => (f.body?.map f.bodyNames).getD []
  | _ => []

/-- The names that a unit puts into sections and code. -/
def unitNames (program : List Decl) : List Text := program.flatMap fun d => d.name :: d.bodyNames

/-- A name is behind its id. -/
def Registered (names : Names) (name : Text) : Prop := names.get? (Name.id name) = some name

/-- Registered names have different ids. -/
theorem Registered.eq_of_id_eq {names : Names} {a b : Text} (ha : Registered names a)
    (hb : Registered names b) (h : Name.id a = Name.id b) : a = b := by
  unfold Registered at ha
  rw [h] at ha
  exact Option.some.inj (ha.symm.trans hb)

/-- All of some names are behind their ids. -/
def AllRegistered (names : Names) (all : List Text) : Prop := ∀ name ∈ all, Registered names name

theorem allRegistered_nil {names : Names} : AllRegistered names [] := by simp [AllRegistered]

/-- Names of two parts are registered if those of each part are. -/
theorem allRegistered_append {names : Names} {a b : List Text} :
    AllRegistered names (a ++ b) ↔ AllRegistered names a ∧ AllRegistered names b :=
  List.forall_mem_append

theorem allRegistered_singleton {names : Names} {name : Text} :
    AllRegistered names [name] ↔ Registered names name :=
  List.forall_mem_singleton

/-- Names stay registered in a table that knows more. -/
theorem AllRegistered.mono {names names' : Names} {all : List Text} (h : AllRegistered names all)
    (hmore : ∀ id name, names.get? id = some name → names'.get? id = some name) :
    AllRegistered names' all :=
  fun name hname => hmore _ _ (h name hname)

namespace Gen

open Stage

/-! ## Calls -/

/-- The functions that a piece of an expression calls. -/
def ExprPiece.called : ExprPiece → List Text
  | .one _ e => e.called
  | .all args => (Expr.allCallSites args).map (·.1)

/-- The functions that the code of an expression calls are registered. -/
theorem registered_exprCode {u : Tables} {Γ : List Symbol} {piece : ExprPiece} {code : Code}
    (h : ExprCode u Γ piece code) : AllRegistered u.names piece.called := by
  induction h with
  | ident | number | string | true_ | false_ | null | attached | minusNumber | step | nil =>
      simpa only [ExprPiece.called, Expr.called, Expr.callSites, Expr.allCallSites, List.map_nil]
        using allRegistered_nil
  | minus _ _ _ ih | tilde _ _ ih | bang _ _ ih | plus _ _ _ _ ih | assign _ _ _ ih
  | compound _ _ _ ih =>
      simpa only [ExprPiece.called, Expr.called, Expr.callSites] using ih
  | relation _ _ _ ihleft ihright | connective _ _ _ _ ihleft ihright
  | arithmetic _ _ _ _ _ ihleft ihright =>
      simp only [ExprPiece.called, Expr.called, Expr.callSites, List.map_append] at ihleft ihright ⊢
      exact allRegistered_append.mpr ⟨ihleft, ihright⟩
  | object hop _ ih => simpa [ExprPiece.called, Expr.called, Expr.callSites, hop] using ih
  | call hop _ _ hname _ ih =>
      -- the one rule that puts the id of a function into code asks for its name
      simp only [ExprPiece.called, Expr.called, Expr.callSites, hop, Option.isNone_none, if_true,
        List.map_append, List.map_cons, List.map_nil] at ih ⊢
      exact allRegistered_append.mpr ⟨allRegistered_singleton.mpr hname, ih⟩
  | cons _ _ ihfirst ihmore =>
      simp only [ExprPiece.called, Expr.called, Expr.allCallSites, List.map_append] at ihfirst ihmore ⊢
      exact allRegistered_append.mpr ⟨ihfirst, ihmore⟩

/-- A constant calls nothing. -/
theorem called_of_isConstant {e : Expr} (h : e.isConstant = true) : e.called = [] := by
  cases e with
  | unary operator operand =>
      cases operand <;> simp_all [Expr.isConstant, Expr.literalType?, Expr.called, Expr.callSites]
  | _ => simp_all [Expr.isConstant, Expr.literalType?, Expr.called, Expr.callSites]

/-- The functions that some expressions call. -/
abbrev calledBy (es : List Expr) : List Text := es.flatMap Expr.called

/-- An expression with code has the names registered that it calls. -/
theorem registered_singleton {u : Tables} {Γ : List Symbol} {want : Want} {e : Expr} {code : Code}
    (h : ExprCode u Γ (.one want e) code) : AllRegistered u.names (calledBy [e]) := by
  rw [calledBy, List.flatMap_singleton]
  exact registered_exprCode h

/-- A constant calls nothing. -/
theorem registered_constant {names : Names} {e : Expr} (h : e.isConstant = true) :
    AllRegistered names (calledBy [e]) := by
  rw [calledBy, List.flatMap_singleton, called_of_isConstant h]
  exact allRegistered_nil

/-- Whatever a variable starts with, the names that it calls are registered. -/
theorem registered_initCode {u : Tables} {Γ : List Symbol} {symbol : Symbol} {init? : Option Expr}
    {code : Code} (h : InitCode u Γ symbol init? code) :
    AllRegistered u.names (calledBy init?.toList) := by
  cases h with
  | none => exact allRegistered_nil
  | constant hconstant => exact registered_constant hconstant
  | value _ hcode => exact registered_singleton hcode

/-- A returned value calls registered names only. -/
theorem registered_returnCode {u : Tables} {ctx : FunctionContext} {Γ : List Symbol}
    {e? : Option Expr} {code : Code} (h : ReturnCode u ctx Γ e? code) :
    AllRegistered u.names (calledBy e?.toList) := by
  cases h with
  | void | zero => exact allRegistered_nil
  | constant _ hconstant => exact registered_constant hconstant
  | value _ _ hcode => exact registered_singleton hcode

/-- The step of a loop is compiled unless the loop tests last, and only then do its calls count. -/
theorem registered_nextCode {u : Tables} {Γ : List Symbol} {kind : LoopKind} {step? : Option Expr}
    {code : Code} (h : NextCode u Γ kind step? code) :
    AllRegistered u.names (calledBy (if kind = .doWhile then [] else step?.toList)) := by
  cases h with
  | none hnone => rcases hnone with rfl | rfl <;> simpa using allRegistered_nil
  | step hkind hcode =>
      rw [if_neg hkind]
      exact registered_singleton hcode

/-- The expressions of a piece of a body that become code. -/
def StmtPiece.exprs : StmtPiece → List Expr
  | .one s => s.exprs
  | .all body | .block body => Stmt.allExprs body
  | .otherwise rest => rest.exprs
  | .start first => first.exprs

/-- The functions that the code of statements calls are registered. -/
theorem registered_stmtCode {u : Tables} {ctx : FunctionContext} {outer inner inner' : List Symbol}
    {piece : StmtPiece} {code : Code} (h : StmtCode u ctx outer inner piece inner' code) :
    AllRegistered u.names (calledBy piece.exprs) := by
  induction h with
  | declare _ _ _ hinit =>
      simpa only [StmtPiece.exprs, Stmt.exprs] using registered_initCode hinit
  | return_ hreturn =>
      simpa only [StmtPiece.exprs, Stmt.exprs] using registered_returnCode hreturn
  | truth hcode | effect _ _ hcode =>
      simpa only [StmtPiece.exprs, Stmt.exprs, Option.toList_some] using registered_singleton hcode
  | nothing | nil | otherwiseNone | startNothing =>
      simpa only [StmtPiece.exprs, Stmt.exprs, Stmt.allExprs, Alternatives.exprs, LoopStart.exprs,
        Option.toList_none, List.flatMap_nil] using allRegistered_nil
  | ifElse htest _ _ _ ihbody ihrest | elseIf htest _ _ _ ihbody ihrest =>
      simp only [StmtPiece.exprs, Stmt.exprs, Alternatives.exprs, List.flatMap_append,
        List.flatMap_cons, allRegistered_append] at ihbody ihrest ⊢
      exact ⟨⟨registered_exprCode htest, ihbody⟩, ihrest⟩
  -- a condition that is missing has no code of its own and calls nothing
  | @loop outer inner started name t kind condition? step? start body prologue code next test
      _ _ hnext htest _ ihstart ihbody =>
      simp only [StmtPiece.exprs, Stmt.exprs, List.flatMap_append, allRegistered_append]
        at ihstart ihbody ⊢
      refine ⟨⟨⟨?_, registered_nextCode hnext⟩, ihstart⟩, ihbody⟩
      cases condition? with
      | none => exact allRegistered_nil
      | some e => exact registered_singleton htest
  -- statements in a row register what each of them calls
  | cons _ _ ihfirst ihmore =>
      simp only [StmtPiece.exprs, Stmt.allExprs, List.flatMap_append] at ihfirst ihmore ⊢
      exact allRegistered_append.mpr ⟨ihfirst, ihmore⟩
  | block _ _ ih | leaving _ _ ih | otherwise _ ih | startDeclare _ ih =>
      simpa only [StmtPiece.exprs, Stmt.exprs, Alternatives.exprs, LoopStart.exprs] using ih
  | startEvaluate hcode =>
      simpa only [StmtPiece.exprs, LoopStart.exprs] using registered_singleton hcode

/-! ## Variables -/

/-- The names of some variables. -/
abbrev namesOf (Γ : List Symbol) : List Text := Γ.map (·.name)

/-- The qualified name of a local carries its function and the mark of what it hides. -/
theorem qualified_localSymbol (function : Text) (outer : List Symbol) (name : Text)
    (type : VarType) :
    (localSymbol function outer name type).qualified = localName function (namesOf outer) name := by
  rw [localSymbol, localName, List.count, List.countP_map]
  rfl

/-- The variables that a piece of a body adds to its block. -/
def StmtPiece.added : StmtPiece → List Text
  | .one s => s.added
  | .all body => body.flatMap Stmt.added
  | .start first => first.added
  | .block _ | .otherwise _ => []

/-- A statement adds the names that it declares, behind those that were there. -/
theorem namesOf_stmtCode {u : Tables} {ctx : FunctionContext} {outer inner inner' : List Symbol}
    {piece : StmtPiece} {code : Code} (h : StmtCode u ctx outer inner piece inner' code) :
    namesOf inner' = namesOf inner ++ piece.added := by
  induction h with
  | declare hsymbol => simp [hsymbol, localSymbol, StmtPiece.added, Stmt.added]
  | startDeclare _ ih => simpa [StmtPiece.added, Stmt.added, LoopStart.added] using ih
  | cons _ _ ihfirst ihmore =>
      rw [ihmore, ihfirst]
      simp [StmtPiece.added]
  | return_ | truth | effect | nothing | ifElse | loop | nil | block | leaving | otherwiseNone
  | otherwise | elseIf | startNothing | startEvaluate =>
      simp [StmtPiece.added, Stmt.added, LoopStart.added]

/-- The parameters are the first names of a function. -/
theorem namesOf_paramSymbols {function : Text} {before : List Symbol} {params : List Param}
    {symbols : List Symbol} (h : ParamSymbols function before params symbols) :
    namesOf symbols = params.map (·.name) := by
  induction h with
  | nil => rfl
  | cons hsymbol _ _ _ ih => simp [hsymbol, localSymbol, ih]

/-! ## Names of a run -/

/-- A variable that can be seen is registered. -/
theorem Inside.registered_qualified {ctx : FunctionContext} {outer inner : List Symbol}
    {s : GenState} (h : Inside ctx outer inner s) {symbol : Symbol} (hmem : symbol ∈ outer ++ inner) :
    Registered s.names symbol.qualified := by
  rw [← h.symbols] at hmem
  obtain ⟨-, -, -, -, -, hid⟩ := h.named.split hmem
  have hget := h.registered symbol hmem
  rw [hid] at hget
  exact hget

/-- The code of a clean run with the tables at its end. -/
theorem EmitsStmt.final {ctx : FunctionContext} {outer inner inner' : List Symbol}
    {piece : StmtPiece} {sites : List (Text × Nat)} {s s' : GenState} {code : Code}
    (h : EmitsStmt ctx outer inner piece sites s inner' code s') :
    StmtCode ⟨s'.names, s'.globals, s'.functions, sites⟩ ctx outer inner piece inner' code :=
  h.code _ ⟨fun _ _ h => h, rfl, rfl⟩ fun _ h => h

/-- A declaration adds one symbol, made from the names around it. -/
theorem inner_of_declare {u : Tables} {ctx : FunctionContext} {outer inner inner' : List Symbol}
    {d : VarDecl} {code : Code} (h : StmtCode u ctx outer inner (.one (.declare d)) inner' code) :
    inner' = inner ++ [localSymbol ctx.name outer d.name d.type] := by
  cases h with
  | declare hsymbol => rw [hsymbol]

/-- A local variable is registered under its qualified name. -/
theorem localVar_registers {ctx : FunctionContext} {outer inner : List Symbol} {d : VarDecl}
    {s s' : GenState} {r : Symbol × Code} (h : Clean (localVar d) s r s') (hproper : d.Proper)
    (hs : Inside ctx outer inner s) :
    Registered s'.names (localName ctx.name (namesOf outer) d.name) := by
  -- the new variable can be seen behind its declaration, and all variables that can be seen there
  -- are registered
  have hemits := localVar_clean h hproper hs
  have hsymbol : r.1 = localSymbol ctx.name outer d.name d.type := by
    simpa using inner_of_declare hemits.final
  have hmem : r.1 ∈ outer ++ (inner ++ [r.1]) := by simp
  have hregistered := hemits.inside.registered_qualified hmem
  rwa [hsymbol, qualified_localSymbol] at hregistered

/-- A returned constant goes through the variable for results, which is registered. -/
theorem returnCode_registers {ctx : FunctionContext} {t : Token} {e? : Option Expr}
    {s s' : GenState} {code : Code} (h : Clean (returnCode ctx t e?) s code s')
    (hconstant : e?.any (·.isConstant) = true) : Registered s'.names (resultName ctx) := by
  cases e? with
  | none => cases hconstant
  | some e =>
      unfold returnCode at h
      simp only [show e.isConstant = true by simpa using hconstant, if_true] at h
      split at h
      · exact absurd h not_clean_report_bind
      · rw [literalOf_eq, pure_bind] at h
        split at h
        · exact absurd h not_clean_report_bind
        · obtain ⟨_, s₁, hregister, h⟩ := h.bind_inv (attentive_register _ _ _)
          obtain ⟨rfl, -⟩ := leaveFunction_clean h
          exact (register_clean hregister).2

/-- The start of a loop registers the variable that it declares, if it does. -/
theorem startCode_registers {ctx : FunctionContext} {outer inner : List Symbol} {start : LoopStart}
    {s s' : GenState} {r : Option Symbol × Code} (h : Clean (startCode start) s r s')
    (hproper : start.Proper) (hs : Inside ctx outer inner s) :
    AllRegistered s'.names (start.added.map (localName ctx.name (namesOf outer))) := by
  cases start with
  | nothing | evaluate e => exact allRegistered_nil
  | declare d =>
      unfold startCode at h
      obtain ⟨declared, s₁, hlocal, h⟩ := h.bind_inv (attentive_localVar d)
      obtain ⟨-, rfl⟩ := clean_pure.mp h
      exact allRegistered_singleton.mpr (localVar_registers hlocal hproper hs)

/-- What is registered inside of a block stays so behind it. -/
theorem inBlock_registers {ctx : FunctionContext} {outer inner : List Symbol} {body : List Stmt}
    {s s' : GenState} {code : Code} (h : Clean (inBlock body (stmts ctx body)) s code s')
    (hs : Inside ctx outer inner s)
    (ih : ∀ {outer inner s code s'}, Clean (stmts ctx body) s code s' → Inside ctx outer inner s →
      AllRegistered s'.names (Stmt.allLocalNames ctx.name (namesOf outer) (namesOf inner) body)) :
    AllRegistered s'.names
      (Stmt.allLocalNames ctx.name (namesOf outer ++ namesOf inner) [] body) := by
  unfold inBlock enter at h
  simp only [clean_modify_bind] at h
  obtain ⟨inside, s₁, hinside, h⟩ := h.bind_inv (attentive_stmts ctx body)
  obtain ⟨found, s₂, hleave, h⟩ := h.bind_inv attentive_leave
  have hnames : s₂.names = s₁.names := by
    unfold leave at hleave
    simp only [clean_get_bind, clean_set_bind, clean_pure] at hleave
    rw [← hleave.2]
  have hlocals := ih hinside hs.enter
  simp only [namesOf, List.map_append, List.map_nil, ← hnames] at hlocals
  split at h
  · obtain ⟨-, rfl⟩ := clean_pure.mp h
    exact hlocals
  · obtain ⟨-, rfl⟩ := clean_pure.mp h
    exact hlocals

mutual

/-- A clean run registers the variables that a statement makes. -/
theorem stmt_registers (ctx : FunctionContext) : (stmt : Stmt) → stmt.Proper →
    ∀ {outer inner s code s'}, Clean (Gen.stmt ctx stmt) s code s' → Inside ctx outer inner s →
    AllRegistered s'.names (stmt.localNames ctx.name (namesOf outer) (namesOf inner))
  | .declare d, hproper, outer, inner, s, code, s', h, hs => by
      unfold Gen.stmt at h
      obtain ⟨declared, s₁, hlocal, h⟩ := h.bind_inv (attentive_localVar d)
      obtain ⟨-, rfl⟩ := clean_pure.mp h
      simp only [Stmt.Proper] at hproper
      simp only [Stmt.localNames, allRegistered_singleton]
      exact localVar_registers hlocal hproper hs
  | .expr name t kind value?, hproper, outer, inner, s, code, s', h, hs => by
      simp only [Stmt.localNames]
      split
      · -- a returned constant is stored and pushed again, so the result variable has a name
        next hresult =>
          obtain ⟨rfl, hconstant⟩ := hresult
          unfold Gen.stmt at h
          exact allRegistered_singleton.mpr (returnCode_registers h hconstant)
      · exact allRegistered_nil
  | .ifElse name t condition body rest, hproper, outer, inner, s, code, s', h, hs => by
      obtain ⟨hcondition, hbody, hrest⟩ : condition.Proper ∧ Stmt.AllProper body ∧ rest.Proper := by
        simpa only [Stmt.Proper] using hproper
      unfold Gen.stmt at h
      -- the last branch comes first in the run, then the other bodies, then all conditions
      obtain ⟨last, s₁, hlast, h⟩ := h.bind_inv (attentive_elseCode ctx rest)
      obtain ⟨first, s₂, hfirst, h⟩ :=
        h.bind_inv (attentive_inBlock body (attentive_stmts ctx body))
      obtain ⟨others, s₃, hothers, h⟩ := h.bind_inv (attentive_branches ctx rest)
      obtain ⟨chain, s₄, hchain, h⟩ := h.bind_inv (attentive_layBranches _ _)
      obtain ⟨-, rfl⟩ := clean_pure.mp h
      -- each stage leaves the scope as it was, so the next one starts inside the same block
      have hs₁ := hs.steady (elseCode_clean ctx rest hrest hlast hs).1
      have hsteady₂ := (inBlock_clean hfirst hs₁ (stmts_clean ctx body hbody)).1
      have hs₂ := hs₁.steady hsteady₂
      obtain ⟨hsteady₃, hconditions, -⟩ := branches_clean ctx rest hrest hothers hs₂
      have hsteady₄ := layBranches_clean (hs₂.steady hsteady₃).toScoped _
        (by simpa using ⟨hcondition, hconditions⟩) hchain
      simp only [Stmt.localNames, allRegistered_append]
      constructor
      · exact (inBlock_registers hfirst hs₁ (stmts_registers ctx body hbody)).mono
          (hsteady₃.trans hsteady₄).names
      · exact (alternatives_registers ctx rest hrest hlast hothers hs hs₂ hsteady₂.toGrows).mono
          hsteady₄.names
  | .loop name t kind condition? step? start body, hproper, outer, inner, s, code, s', h, hs => by
      obtain ⟨hcondition, hstep, hstart, hbody⟩ : (∀ e, condition? = some e → e.Proper)
          ∧ (∀ e, step? = some e → e.Proper) ∧ start.Proper ∧ Stmt.AllProper body := by
        simpa only [Stmt.Proper] using hproper
      -- a loop without a condition tests the word for truth
      have hcondition : (condition?.getD (alwaysTrue t)).Proper := by
        cases condition? with
        | none => simp [alwaysTrue, Expr.Proper]
        | some e => exact hcondition e rfl
      unfold Gen.stmt enter at h
      simp only [clean_modify_bind] at h
      obtain ⟨started, s₁, hstarted, h⟩ := h.bind_inv (attentive_startCode start)
      obtain ⟨inside, s₂, hinside, h⟩ :=
        h.bind_inv (attentive_inBlock body (attentive_stmts ctx body))
      obtain ⟨around, s₃, haround, h⟩ := h.bind_inv (attentive_loopCode _ _ _ _ _)
      obtain ⟨release, s₄, hrelease, h⟩ := h.bind_inv (attentive_releaseCode _)
      obtain ⟨found, s₅, hleave, h⟩ := h.bind_inv attentive_leave
      obtain ⟨-, rfl⟩ := clean_pure.mp h
      have hemits := startCode_clean hstarted hstart hs.enter
      have hnames : namesOf started.1.toList = start.added := by
        simpa [StmtPiece.added] using namesOf_stmtCode hemits.final
      simp only [List.nil_append] at hemits
      have hs₁ := hemits.inside
      have hsteady₂ := (inBlock_clean hinside hs₁ (stmts_clean ctx body hbody)).1
      have hs₂ := hs₁.steady hsteady₂
      have hsteady₃ := (loopCode_clean haround hcondition hstep hs₂.toScoped).1
      obtain ⟨-, hgrows₄, hs₄, hmarks₄⟩ := releaseCode_clean hrelease (hs₂.steady hsteady₃)
      have hgrows₂₄ := hsteady₃.toGrows.trans hgrows₄
      -- leaving the block drops its variables from the scope but not from the names
      have hgrows₅ : Grows s₄ s₅ := by
        unfold leave at hleave
        simp only [clean_get_bind, clean_set_bind, clean_pure] at hleave
        rw [← hleave.2]
        exact ⟨fun _ _ h => h, rfl, rfl⟩
      have hgrows₂₅ := hgrows₂₄.trans hgrows₅
      have hfirst := startCode_registers hstarted hstart hs.enter
      have hlocals := inBlock_registers hinside hs₁ (stmts_registers ctx body hbody)
      simp only [Stmt.localNames, allRegistered_append]
      constructor
      · simpa [namesOf] using hfirst.mono (hsteady₂.toGrows.trans hgrows₂₅).names
      · simpa [hnames] using hlocals.mono hgrows₂₅.names

/-- Statements of a block register their names one after the other; a declaration is in force for
those behind it. -/
theorem stmts_registers (ctx : FunctionContext) : (body : List Stmt) → Stmt.AllProper body →
    ∀ {outer inner s code s'}, Clean (stmts ctx body) s code s' → Inside ctx outer inner s →
    AllRegistered s'.names (Stmt.allLocalNames ctx.name (namesOf outer) (namesOf inner) body)
  | [], _, outer, inner, s, code, s', h, hs => by
      simp only [Stmt.allLocalNames]
      exact allRegistered_nil
  | first :: rest, hproper, outer, inner, s, code, s', h, hs => by
      obtain ⟨hfirst, hrest⟩ : first.Proper ∧ Stmt.AllProper rest := by
        simpa only [Stmt.AllProper] using hproper
      unfold stmts at h
      obtain ⟨code, s₁, hcode, h⟩ := h.bind_inv (attentive_stmt ctx first)
      obtain ⟨more, s₂, hmore, h⟩ := h.bind_inv (attentive_stmts ctx rest)
      obtain ⟨-, rfl⟩ := clean_pure.mp h
      obtain ⟨inner₁, hemits⟩ := stmt_clean ctx first hfirst hcode hs
      -- what the first statement adds is seen by the others
      have hnames : namesOf inner₁ = namesOf inner ++ first.added := namesOf_stmtCode hemits.final
      obtain ⟨_, hemits'⟩ := stmts_clean ctx rest hrest hmore hemits.inside
      simp only [Stmt.allLocalNames, allRegistered_append, ← hnames]
      exact ⟨(stmt_registers ctx first hfirst hcode hs).mono hemits'.names,
        stmts_registers ctx rest hrest hmore hemits.inside⟩

/-- The last branch is compiled before the others, so two runs have to be looked at. -/
theorem alternatives_registers (ctx : FunctionContext) : (rest : Alternatives) → rest.Proper →
    ∀ {outer inner s last s₁ s₂ others s₃}, Clean (elseCode ctx rest) s last s₁ →
    Clean (branches ctx rest) s₂ others s₃ → Inside ctx outer inner s → Inside ctx outer inner s₂ →
    Grows s₁ s₂ → AllRegistered s₃.names (rest.localNames ctx.name (namesOf outer) (namesOf inner))
  | .none, _, outer, inner, s, last, s₁, s₂, others, s₃, _, _, _, _, _ => by
      simp only [Alternatives.localNames]
      exact allRegistered_nil
  | .otherwise name t body, hproper, outer, inner, s, last, s₁, s₂, others, s₃, hlast, hothers, hs,
      _, hgrows => by
      simp only [Alternatives.Proper] at hproper
      unfold elseCode at hlast
      unfold branches at hothers
      obtain ⟨-, rfl⟩ := clean_pure.mp hothers
      simp only [Alternatives.localNames]
      exact (inBlock_registers hlast hs (stmts_registers ctx body hproper)).mono hgrows.names
  | .elseIf name t condition body rest, hproper, outer, inner, s, last, s₁, s₂, others, s₃, hlast,
      hothers, hs, hs₂, hgrows => by
      obtain ⟨-, hbody, hrest⟩ : condition.Proper ∧ Stmt.AllProper body ∧ rest.Proper := by
        simpa only [Alternatives.Proper] using hproper
      unfold elseCode at hlast
      unfold branches at hothers
      -- the branch is compiled first, then those behind it, while the last one was compiled before
      -- both
      obtain ⟨code, s₄, hcode, h⟩ :=
        hothers.bind_inv (attentive_inBlock body (attentive_stmts ctx body))
      obtain ⟨more, s₅, hmore, h⟩ := h.bind_inv (attentive_branches ctx rest)
      obtain ⟨-, rfl⟩ := clean_pure.mp h
      have hsteady₄ := (inBlock_clean hcode hs₂ (stmts_clean ctx body hbody)).1
      have hs₄ := hs₂.steady hsteady₄
      have hsteady₅ := (branches_clean ctx rest hrest hmore hs₄).1
      simp only [Alternatives.localNames, allRegistered_append]
      -- names are only added, so those of the branch are there at the end
      constructor
      · exact (inBlock_registers hcode hs₂ (stmts_registers ctx body hbody)).mono hsteady₅.names
      · exact alternatives_registers ctx rest hrest hlast hmore hs hs₄
          (hgrows.trans hsteady₄.toGrows)

end

/-- Parameters are registered under their qualified names. -/
theorem allRegistered_params {names : Names} {function : Text} {before : List Symbol}
    {params : List Param} {symbols : List Symbol}
    (h : ParamSymbols function before params symbols)
    (hsymbols : ∀ symbol ∈ symbols, Registered names symbol.qualified) :
    AllRegistered names (params.map (localName function [] ·.name)) := by
  induction h with
  | nil => exact allRegistered_nil
  | @cons before p rest symbol more hsymbol _ _ _ ih =>
      obtain ⟨hfirst, hmore⟩ := List.forall_mem_cons.mp hsymbols
      rw [hsymbol, qualified_localSymbol] at hfirst
      exact List.forall_mem_cons.mpr ⟨hfirst, ih hmore⟩

/-- Parameters first, then the body in their scope. -/
theorem functionCode_registers {f : FuncDecl} {body : List Stmt} {s s' : GenState} {code : Code}
    (h : Clean (functionCode f body) s code s') (hproper : f.Proper) (hbody : f.body? = some body)
    (hs : GlobalsNamed s) : AllRegistered s'.names (f.bodyNames body) := by
  unfold functionCode at h
  simp only [clean_modify_bind] at h
  obtain ⟨params, s₁, hparams, h⟩ := h.bind_inv (attentive_declareParams f.params)
  obtain ⟨inside, s₂, hinside, h⟩ := h.bind_inv (attentive_stmts _ body)
  have hstart : Inside ⟨f.name, f.returnType⟩ [] [] { s with scope := ⟨f.name, [], []⟩ } :=
    ⟨⟨.nil, by simp, hs⟩, rfl, rfl, rfl⟩
  obtain ⟨hsymbols, -, hs₁⟩ := declareParams_clean f.params hproper.params hparams hstart
  obtain ⟨inner, hemits⟩ := stmts_clean _ body (hproper.body body hbody) hinside hs₁
  -- the parameters
  have hfirst : AllRegistered s₁.names (f.params.map (localName f.name [] ·.name)) :=
    allRegistered_params hsymbols fun symbol hmem => hs₁.registered_qualified (by simpa using hmem)
  -- the variables of the body
  have hlocals := stmts_registers _ body (hproper.body body hbody) hinside hs₁
  simp only [namesOf, List.map_nil, List.nil_append] at hlocals
  -- the functions that it calls
  have hcalls : AllRegistered s₂.names (calledBy (Stmt.allExprs body)) :=
    registered_stmtCode hemits.final
  have hnames : AllRegistered s₂.names (f.bodyNames body) := by
    simp only [FuncDecl.bodyNames, allRegistered_append]
    refine ⟨⟨hfirst.mono hemits.names, ?_⟩, hcalls⟩
    rw [← namesOf_paramSymbols hsymbols]
    exact hlocals
  -- a return that is put behind the body adds the name of its own variable at most
  split at h
  · simp only [pure_bind] at h
    obtain ⟨-, rfl⟩ := clean_pure.mp h
    exact hnames
  · obtain ⟨exit, s₃, hexit, h⟩ := h.bind_inv (attentive_returnCode _ _ _)
    obtain ⟨-, rfl⟩ := clean_pure.mp h
    have hsteady := (returnCode_clean hexit (by simp) hemits.inside.toScoped).1
    exact hnames.mono hsteady.names

/-- Every section registers the names that its declaration puts into code. -/
theorem declSection_registers {d : Decl} {s s' : GenState} {r : Option Section}
    (h : Clean (declSection d) s r s') (hproper : d.Proper) (hs : GlobalsNamed s) :
    AllRegistered s'.names d.bodyNames := by
  cases d with
  | field d | var d => exact allRegistered_nil
  | function f =>
      simp only [declSection] at h
      split at h
      · next hbody => simpa [Decl.bodyNames, hbody] using allRegistered_nil
      · next body hbody =>
          obtain ⟨code, s₁, hcode, h⟩ := h.bind_inv (attentive_functionCode f body)
          obtain ⟨-, rfl⟩ := clean_pure.mp h
          simpa [Decl.bodyNames, hbody] using functionCode_registers hcode hproper hbody hs

/-- A unit registers the names of all its declarations: names are only added from one to the next. -/
theorem sections_registers : (program : List Decl) → (∀ d ∈ program, d.Proper) → ∀ {s found s'},
    Clean (sections program) s found s' → GlobalsNamed s →
    ∀ d ∈ program, AllRegistered s'.names d.bodyNames
  | [], _, s, found, s', h, hs => by simp
  | d :: rest, hproper, s, found, s', h, hs => by
      unfold sections at h
      obtain ⟨first, s₁, hfirst, h⟩ := h.bind_inv (attentive_declSection d)
      obtain ⟨more, s₂, hmore, h⟩ := h.bind_inv (attentive_sections rest)
      obtain ⟨-, rfl⟩ := clean_pure.mp h
      obtain ⟨hd, hrest⟩ := List.forall_mem_cons.mp hproper
      have hs₁ := hs.mono (declSection_clean hfirst hd hs).1
      have hgrows := (sections_clean rest hrest hmore hs₁).1
      exact List.forall_mem_cons.mpr ⟨(declSection_registers hfirst hd hs).mono hgrows.names,
        sections_registers rest hrest hmore hs₁⟩

/-- The id of a declaration is that of its name. -/
theorem id_of_proper {d : Decl} (h : d.Proper) : d.id = Name.id d.name := by
  cases d with
  | field d | var d => exact h.2
  | function f => rfl

/-- A clean run registers every name that the unit puts into sections and code. -/
theorem generate_registers {program : List Decl} {found : List Section} {final : GenState}
    (h : Clean (generate program) {} found final) (hproper : ∀ d ∈ program, d.Proper) :
    AllRegistered final.names (unitNames program) := by
  unfold generate at h
  obtain ⟨_, s₁, hdeclared, h⟩ := h.bind_inv (attentive_declareAll program)
  have hdeclared : Declared program s₁ := by
    simpa using declareAll_clean program hdeclared declared_nil
  have hnamed := hdeclared.globalsNamed hproper
  have hgrows := (sections_clean program hproper h hnamed).1
  intro name hname
  obtain ⟨d, hd, hname⟩ := List.mem_flatMap.mp hname
  rcases List.mem_cons.mp hname with rfl | hname
  · have hid := hgrows.names _ _ (hdeclared.names d hd)
    rwa [id_of_proper (hproper d hd)] at hid
  · exact sections_registers program hproper h hnamed d hd name hname

end Gen

end TickScript
