import TickScript.Proofs.Codegen.Expr

/-!
# What the generator emits for statements

The second part of what a clean run emits. A declaration adds a variable to the innermost block, any
other statement leaves the scope as it found it. What the rules say about ids follows from the names:
two variables that can be seen at one place have different qualified names, and a second name for one
id would have been reported.

Clean runs are inverted from the back: the last report would have been made by the last stage, so a
clean run of several stages is a clean run of each. Where a block is left, what was declared in it
has to be found again behind the marks of the scope (`leave_clean`), and that needs `Inside`: the
symbols are those of the outer blocks followed by those of the innermost one.

Branches are emitted bodies first and tests afterwards, from the last branch to the first, while
their code stands in the order of the source. `BranchesCode` holds the bodies in between; a chain is
put together from it in `layBranches_clean`.
-/

namespace TickScript.Gen

open Stage

/-! ## Variables -/

/-- Inside a block of a function: the variables of the blocks around it, then its own. -/
structure Inside (ctx : FunctionContext) (outer inner : List Symbol) (s : GenState) : Prop
    extends Scoped s where
  /-- The scope is that of the function. -/
  function : s.scope.function = ctx.name
  /-- The symbols are the outer ones and those of the block. -/
  symbols : s.scope.symbols = outer ++ inner
  /-- The mark of the block lies between the two. -/
  start : s.scope.start = outer.length

/-- A stage that leaves the scope alone keeps the generator inside the same block. -/
theorem Inside.steady {ctx : FunctionContext} {outer inner : List Symbol} {s s' : GenState}
    (h : Inside ctx outer inner s) (hsteady : Steady s s') : Inside ctx outer inner s' :=
  ⟨h.toScoped.steady hsteady, by rw [hsteady.scope]; exact h.function,
    by rw [hsteady.scope]; exact h.symbols, by rw [hsteady.scope]; exact h.start⟩

/-- A clean run of the code of statements. -/
structure EmitsStmt (ctx : FunctionContext) (outer inner : List Symbol) (piece : StmtPiece)
    (sites : List (Text × Nat)) (s : GenState) (inner' : List Symbol) (code : Code)
    (s' : GenState) : Prop extends Grows s s' where
  /-- Behind the statement the scope is the same block with its new symbols. -/
  inside : Inside ctx outer inner' s'
  /-- The marks of the blocks around it are untouched. -/
  marks : s'.scope.marks = s.scope.marks
  /-- For every unit with these tables the code is that of the statement. -/
  code : ∀ u, Fits u s' → (∀ site ∈ sites, site ∈ u.calls) →
    StmtCode u ctx outer inner piece inner' code

/-- Declaring a local reports nothing; it goes on unless the scope is broken, with what the symbol
table answers. -/
theorem clean_declareLocal {name : Text} {type : VarType} {r : Symbol × Bool} {s s' : GenState} :
    Clean (declareLocal name type) s r s' ↔ s.scope.isBroken = false
      ∧ ((s.scope.declare name type).1, (s.scope.declare name type).2.1) = r
      ∧ { s with scope := (s.scope.declare name type).2.2 } = s' := by
  unfold declareLocal SymbolTable.declare?
  rw [clean_get_bind]
  cases hbroken : s.scope.isBroken with
  | true => simp
  | false => simp only [Bool.false_eq_true, if_false, true_and, clean_set_bind, clean_pure]

/-- A variable that is new in its block gets an id that no other visible variable has. -/
theorem declareLocal_clean {ctx : FunctionContext} {outer inner : List Symbol} {t : Token}
    {name : Text} {type : VarType} {s s₁ s' : GenState} {symbol : Symbol} {a : Unit}
    (hdeclared : Clean (declareLocal name type) s (symbol, true) s₁)
    (hregister : Clean (register t symbol.id symbol.qualified) s₁ a s')
    (hname : isIdentifier name = true) (hs : Inside ctx outer inner s) :
    symbol = localSymbol ctx.name outer name type ∧ symbol.id ∉ ids (outer ++ inner)
      ∧ Grows s s' ∧ Inside ctx outer (inner ++ [symbol]) s'
      ∧ s'.scope.marks = s.scope.marks := by
  replace hdeclared := (clean_declareLocal.mp hdeclared).2
  simp only [SymbolTable.declare, hs.symbols, hs.start, hs.function, List.drop_left,
    List.take_left] at hdeclared
  cases hfind : inner.find? (·.name == name) with
  -- the name is in the block already, which would have been reported
  | some earlier => simp [hfind] at hdeclared
  | none =>
      simp only [hfind, Prod.mk.injEq, and_true] at hdeclared
      obtain ⟨rfl, rfl⟩ := hdeclared
      obtain ⟨hsteady, hregistered⟩ := register_clean hregister
      have hgrows : Grows s s' := ⟨hsteady.names, hsteady.globals, hsteady.functions⟩
      -- the mark counts what the name hides, all of it further out
      have hcount : (outer ++ inner).countP (·.name == name) = outer.countP (·.name == name) := by
        have : inner.countP (·.name == name) = 0 := by
          rw [List.countP_eq_zero]
          exact fun symbol hmem => by simpa using List.find?_eq_none.mp hfind symbol hmem
        rw [List.countP_append, this, Nat.add_zero]
      have hnamed : Named ctx.name (outer ++ inner) := by
        rw [← hs.function, ← hs.symbols]
        exact hs.named
      have hsymbols := congrArg SymbolTable.symbols hsteady.scope
      refine ⟨rfl, fun hmem => ?_, hgrows, ⟨⟨?_, ?_, hs.globals.mono hgrows⟩, ?_, ?_, ?_⟩, ?_⟩
      · -- two qualified names with one id would have clashed in the table of names
        obtain ⟨other, hother, hid⟩ := List.mem_map.mp hmem
        have hbefore := hgrows.names _ _ (hs.registered other (by rw [hs.symbols]; exact hother))
        refine hnamed.qualified_ne hother hname ?_
        rw [hcount]
        rw [hid] at hbefore
        exact Option.some.inj (hbefore.symm.trans hregistered)
      · rw [hsteady.scope]
        exact .snoc hnamed hname (by rw [hcount]) rfl
      · intro other hmem
        rw [hsymbols] at hmem
        -- old names stay registered, the new one is
        rcases List.mem_append.mp hmem with hmem | hmem
        · exact hgrows.names _ _ (hs.registered other (by rw [hs.symbols]; exact hmem))
        · obtain rfl := List.mem_singleton.mp hmem
          exact hregistered
      · rw [hsteady.scope]
      · rw [hsymbols, List.append_assoc]
      · rw [hsteady.scope]
        exact hs.start
      · rw [hsteady.scope]

/-- A start value has the code of the rules, in the scope that holds the new variable. -/
theorem initialise_clean {symbol : Symbol} {init : Expr} {s s' : GenState} {code : Code}
    (h : Clean (initialise symbol init) s code s') (hproper : init.Proper) (hs : Scoped s) :
    Steady s s' ∧ ∀ u, Fits u s' → (∀ site ∈ init.callSites, site ∈ u.calls) →
      InitCode u s.scope.symbols symbol (some init) code := by
  unfold initialise at h
  simp only at h
  split at h
  · exact absurd h not_clean_report_bind
  · split at h
    · next hconstant =>
        rw [literalOf_eq, pure_bind] at h
        split at h
        · -- a constant is written as bytes
          next v hv =>
            obtain ⟨rfl, rfl⟩ := clean_pure.mp h
            exact ⟨.refl _, fun u _ _ => .constant hconstant hv⟩
        · exact absurd h not_clean_report_bind
    · next hconstant =>
        -- any other value is computed and stored
        obtain ⟨value, s₁, hvalue, h⟩ := h.bind_inv (attentive_expr .value init)
        obtain ⟨rfl, rfl⟩ := clean_pure.mp h
        have hemits := expr_clean .value init hproper hvalue hs
        exact ⟨hemits.toSteady, fun u hu hsites =>
          .value (by simpa using hconstant) (hemits.code u hu hsites)⟩

/-- A local variable is one more symbol of the innermost block. -/
theorem localVar_clean {ctx : FunctionContext} {outer inner : List Symbol} {d : VarDecl}
    {s s' : GenState} {r : Symbol × Code} (h : Clean (localVar d) s r s') (hproper : d.Proper)
    (hs : Inside ctx outer inner s) :
    EmitsStmt ctx outer inner (.one (.declare d)) (Stmt.declare d).callSites s (inner ++ [r.1]) r.2
      s' := by
  unfold localVar at h
  simp only [clean_get_bind] at h
  split at h
  · exact absurd h not_clean_report_bind
  obtain ⟨⟨symbol, fresh⟩, s₁, hdeclared, h⟩ := h.bind_inv (attentive_declareLocal _ _)
  simp only at h
  split at h
  · exact absurd h not_clean_report_bind
  -- the name is new in its block, or this would have been reported
  next hfresh =>
  obtain rfl : fresh = true := by simpa using hfresh
  obtain ⟨_, s₂, hregister, h⟩ := h.bind_inv (attentive_register _ _ _)
  obtain ⟨hsymbol, hnotMem, hgrows, hinside, hmarks⟩ :=
    declareLocal_clean hdeclared hregister hproper.name hs
  simp only [Stmt.callSites]
  cases hinit : d.initial? with
  | none =>
      simp only [hinit] at h
      obtain ⟨rfl, rfl⟩ := clean_pure.mp h
      refine ⟨hgrows, hinside, hmarks, fun u _ _ => ?_⟩
      rw [← hinit]
      exact .declare hsymbol hproper.type hnotMem (by rw [hinit]; exact .none)
  -- the start value is compiled in the scope that has the variable
  | some init =>
      simp only [hinit] at h
      obtain ⟨code, s₃, hcode, h⟩ := h.bind_inv (attentive_initialise _ _)
      obtain ⟨rfl, rfl⟩ := clean_pure.mp h
      obtain ⟨hsteady, hcode⟩ :=
        initialise_clean hcode (hproper.initial init hinit) hinside.toScoped
      refine ⟨hgrows.trans hsteady.toGrows, hinside.steady hsteady, ?_, fun u hu hsites => ?_⟩
      · rw [hsteady.scope, hmarks]
      · rw [← hinit]
        refine .declare hsymbol hproper.type hnotMem ?_
        rw [hinit, ← hinside.symbols]
        exact hcode u hu hsites

/-! ## Parts of statements -/

/-- On leaving a function everything in scope is freed, the innermost first. -/
theorem leaveFunction_clean {ctx : FunctionContext} {result : Code} {extra : List Id}
    {s s' : GenState} {code : Code} (h : Clean (leaveFunction ctx result extra) s code s') :
    s = s' ∧ code = leaveLayout ctx.returnType result
      (extra ++ (ids s.scope.symbols).reverse) := by
  unfold leaveFunction at h
  simp only [clean_get_bind, clean_pure] at h
  exact ⟨h.2, h.1.symm⟩

/-- A return has one of the shapes that the rules know. -/
theorem returnCode_clean {ctx : FunctionContext} {t : Token} {e? : Option Expr} {s s' : GenState}
    {code : Code} (h : Clean (returnCode ctx t e?) s code s')
    (hproper : ∀ e, e? = some e → e.Proper) (hs : Scoped s) :
    Steady s s' ∧ ∀ u, Fits u s' → (∀ site ∈ Expr.optionalCallSites e?, site ∈ u.calls) →
      ReturnCode u ctx s.scope.symbols e? code := by
  unfold returnCode at h
  split at h
  · split at h
    · -- nothing is returned from a void function
      next hvoid =>
        obtain ⟨rfl, rfl⟩ := leaveFunction_clean h
        exact ⟨.refl _, fun u _ _ => .void hvoid⟩
    · -- a function with a result returns its zero
      next hvoid =>
        split at h
        · exact absurd h not_clean_report_bind
        · obtain ⟨rfl, rfl⟩ := leaveFunction_clean h
          exact ⟨.refl _, fun u _ _ => .zero hvoid⟩
  · next e =>
      split at h
      · exact absurd h not_clean_report_bind
      · next hvoid =>
          split at h
          · next hconstant =>
              rw [literalOf_eq, pure_bind] at h
              split at h
              · exact absurd h not_clean_report_bind
              · -- a constant goes through the variable for results
                next v hv =>
                  obtain ⟨_, s₁, hregister, h⟩ := h.bind_inv (attentive_register _ _ _)
                  obtain ⟨rfl, rfl⟩ := leaveFunction_clean h
                  have hsteady := (register_clean hregister).1
                  refine ⟨hsteady, fun u _ _ => ?_⟩
                  rw [hsteady.scope]
                  exact .constant hvoid hconstant hv
          · next hconstant =>
              -- any other value is left on the stack
              obtain ⟨value, s₁, hvalue, h⟩ := h.bind_inv (attentive_expr .value e)
              obtain ⟨rfl, rfl⟩ := leaveFunction_clean h
              have hemits := expr_clean .value e (hproper e rfl) hvalue hs
              refine ⟨hemits.toSteady, fun u hu hsites => ?_⟩
              rw [hemits.scope]
              exact .value hvoid (by simpa using hconstant) (hemits.code u hu hsites)

/-- A branch is laid out only if its jumps are within reach. -/
theorem branchCode_clean {t : Token} {test body tail : Code} {s s' : GenState} {code : Code}
    (h : Clean (branchCode t test body tail) s code s') :
    s = s' ∧ BranchFits body tail ∧ code = branchLayout test body tail := by
  unfold branchCode at h
  obtain ⟨enter, s₁, henter, h⟩ := h.bind_inv (attentive_jump _ _ _)
  obtain ⟨avoid, s₂, havoid, h⟩ := h.bind_inv (attentive_jump _ _ _)
  obtain ⟨rfl, -, rfl⟩ := jump_clean henter
  obtain ⟨rfl, hskip, rfl⟩ := jump_clean havoid
  cases htail : tail.isEmpty with
  | true =>
      simp only [htail, Bool.not_true, Bool.false_eq_true, if_false, pure_bind, clean_pure] at h hskip
      obtain ⟨rfl, rfl⟩ := h
      refine ⟨rfl, ⟨by simpa [skipSize, htail] using hskip, by simp [htail]⟩, ?_⟩
      simp [branchLayout, skipSize, htail]
  | false =>
      simp only [htail, Bool.not_false, if_true] at h hskip
      obtain ⟨exit, s₃, hexit, h⟩ := h.bind_inv (attentive_jump _ _ _)
      obtain ⟨rfl, hreach, rfl⟩ := jump_clean hexit
      obtain ⟨rfl, rfl⟩ := clean_pure.mp h
      refine ⟨rfl, ⟨by simpa [skipSize, htail] using hskip, fun _ => hreach⟩, ?_⟩
      simp [branchLayout, skipSize, htail]

/-- The test of a loop ends with the jump back to the body. -/
theorem loopTest_clean {t : Token} {condition : Expr} {inner : Code} {s s' : GenState} {code : Code}
    (h : Clean (loopTest t condition (Instr.sizeAll inner)) s code s') (hproper : condition.Proper)
    (hs : Scoped s) : ∃ test, Reachable (backDistance inner test)
      ∧ code = .plain .setFlag :: test ++ [jumpInstr .jumpIfBy (backDistance inner test)]
      ∧ Emits (.one .truth condition) condition.callSites s test s' := by
  unfold loopTest at h
  obtain ⟨test, s₁, htest, h⟩ := h.bind_inv (attentive_expr _ _)
  obtain ⟨back, s₂, hback, h⟩ := h.bind_inv (attentive_jump _ _ _)
  obtain ⟨rfl, hreach, rfl⟩ := jump_clean hback
  obtain ⟨rfl, rfl⟩ := clean_pure.mp h
  exact ⟨test, hreach, rfl, expr_clean .truth condition hproper htest hs⟩

/-- A loop is laid out around its body and its step only if all its jumps are within reach. -/
theorem loopCode_clean {t : Token} {kind : LoopKind} {condition : Expr} {step? : Option Expr}
    {body : Code} {s s' : GenState} {code : Code}
    (h : Clean (loopCode t kind condition step? body) s code s') (hcondition : condition.Proper)
    (hstep : ∀ e, step? = some e → e.Proper) (hs : Scoped s) :
    Steady s s' ∧ ∃ next test, code = loopLayout kind (body ++ next) test
      ∧ LoopFits kind (body ++ next) test ∧ ∀ u, Fits u s' →
        (∀ site ∈ Expr.optionalCallSites step? ++ condition.callSites, site ∈ u.calls) →
        NextCode u s.scope.symbols kind step? next
          ∧ ExprCode u s.scope.symbols (.one .truth condition) test := by
  -- loops that test first differ only in whether they have a step, which comes behind the body
  have hwhile (hkind : kind ≠ .doWhile) {next : Code} {s₁ : GenState} (hsteady : Steady s s₁)
      (h : Clean (do
        let forward ← jump t .jumpBy (Instr.sizeAll (body ++ next))
        let test ← loopTest t condition (Instr.sizeAll (body ++ next))
        return .plain .saveCompare :: forward ++ (body ++ next) ++ test ++ [.plain .restoreCompare])
        s₁ code s') :
      Steady s s' ∧ ∃ test, code = loopLayout kind (body ++ next) test
        ∧ LoopFits kind (body ++ next) test ∧ Emits (.one .truth condition) condition.callSites s₁
          test s' := by
    obtain ⟨forward, s₂, hforward, h⟩ := h.bind_inv (attentive_jump _ _ _)
    obtain ⟨rfl, hreach, rfl⟩ := jump_clean hforward
    obtain ⟨_, s₃, htest, h⟩ := h.bind_inv (attentive_loopTest _ _ _)
    obtain ⟨rfl, rfl⟩ := clean_pure.mp h
    obtain ⟨test, hback, rfl, hemits⟩ := loopTest_clean htest hcondition (hs.steady hsteady)
    exact ⟨hsteady.trans hemits.toSteady, test, by simp [loopLayout, hkind],
      ⟨fun _ => hreach, hback⟩, hemits⟩
  unfold loopCode at h
  split at h
  · obtain ⟨_, s₁, htest, h⟩ := h.bind_inv (attentive_loopTest _ _ _)
    obtain ⟨rfl, rfl⟩ := clean_pure.mp h
    obtain ⟨test, hback, rfl, hemits⟩ := loopTest_clean htest hcondition hs
    refine ⟨hemits.toSteady, [], test, by simp [loopLayout], ⟨by simp, by simpa using hback⟩, ?_⟩
    exact fun u hu hsites => ⟨.none (.inl rfl), hemits.code u hu fun site hmem =>
      hsites site (by simp [hmem])⟩
  · next hkind =>
      cases step? with
      | none =>
          simp only [pure_bind] at h
          obtain ⟨hsteady, test, rfl, hfits, hemits⟩ := hwhile hkind (.refl s) h
          exact ⟨hsteady, [], test, rfl, hfits, fun u hu hsites => ⟨.none (.inr rfl),
            hemits.code u hu fun site hmem => hsites site (by simp [hmem])⟩⟩
      | some e =>
          obtain ⟨next, s₁, hnext, h⟩ := h.bind_inv (attentive_expr _ _)
          have hnext := expr_clean .effect e (hstep e rfl) hnext hs
          obtain ⟨hsteady, test, rfl, hfits, hemits⟩ := hwhile hkind hnext.toSteady h
          refine ⟨hsteady, next, test, rfl, hfits, fun u hu hsites => ⟨.step hkind ?_, ?_⟩⟩
          · exact hnext.code_of (.refl s) hemits.toGrows hu fun site hmem =>
              hsites site (by simp [Expr.optionalCallSites, hmem])
          · exact hemits.code_of hnext.toSteady (.refl _) hu fun site hmem =>
              hsites site (by simp [hmem])

/-! ## Statements -/

/-- Entering a block. -/
theorem Inside.enter {ctx : FunctionContext} {outer inner : List Symbol} {s : GenState}
    (h : Inside ctx outer inner s) :
    Inside ctx (outer ++ inner) [] { s with scope := s.scope.enter } :=
  ⟨⟨h.named, h.registered, h.globals⟩, h.function, by simpa [SymbolTable.enter] using h.symbols,
    by simp [SymbolTable.enter, SymbolTable.start, h.symbols]⟩

/-- Leaving the block that was entered in `s` drops its variables and gives back the scope. -/
theorem leave_clean {ctx : FunctionContext} {outer inner dropped found : List Symbol}
    {s s₁ s' : GenState} (h : Clean leave s₁ found s') (hs : Inside ctx outer inner s)
    (hgrows : Grows s s₁) (hinside : Inside ctx (outer ++ inner) dropped s₁)
    (hmarks : s₁.scope.marks = s.scope.enter.marks) :
    found = dropped ∧ Steady s s' ∧ Grows s₁ s' := by
  unfold leave at h
  simp only [clean_get_bind, clean_set_bind, clean_pure] at h
  have hscope : s₁.scope = ⟨ctx.name, outer ++ inner ++ dropped, (outer ++ inner).length
      :: s.scope.marks⟩ := by
    rw [← hinside.symbols, ← hinside.function, ← hs.symbols]
    exact congrArg (SymbolTable.mk _ _) hmarks
  obtain ⟨hfound, rfl⟩ := h
  refine ⟨?_, ⟨⟨hgrows.names, hgrows.globals, hgrows.functions⟩, ?_⟩, ⟨fun _ _ h => h, rfl, rfl⟩⟩
  · rw [← hfound, hscope]
    exact List.drop_left
  · simp only [hscope, SymbolTable.leave, List.take_left]
    rw [← hs.symbols, ← hs.function]

/-- Every clean run of a statement emits its code. -/
def EmittedStmt (ctx : FunctionContext) (stmt : Stmt) : Prop :=
  ∀ {outer inner s code s'}, Clean (Gen.stmt ctx stmt) s code s' → Inside ctx outer inner s →
    ∃ inner', EmitsStmt ctx outer inner (.one stmt) stmt.callSites s inner' code s'

/-- Every clean run of a body emits its code. -/
def AllEmittedStmts (ctx : FunctionContext) (body : List Stmt) : Prop :=
  ∀ {outer inner s code s'}, Clean (stmts ctx body) s code s' → Inside ctx outer inner s →
    ∃ inner', EmitsStmt ctx outer inner (.all body) (Stmt.allCallSites body) s inner' code s'

/-- A block drops its variables again: the scope behind it is that before it. -/
theorem inBlock_clean {ctx : FunctionContext} {outer inner : List Symbol} {body : List Stmt}
    {s s' : GenState} {code : Code} (h : Clean (inBlock body (stmts ctx body)) s code s')
    (hs : Inside ctx outer inner s) (ih : AllEmittedStmts ctx body) :
    Steady s s' ∧ ∀ u, Fits u s' → (∀ site ∈ Stmt.allCallSites body, site ∈ u.calls) →
      StmtCode u ctx outer inner (.block body) inner code := by
  unfold inBlock enter at h
  simp only [clean_modify_bind] at h
  obtain ⟨inside, s₁, hinside, h⟩ := h.bind_inv (attentive_stmts ctx body)
  obtain ⟨found, s₂, hleave, h⟩ := h.bind_inv attentive_leave
  obtain ⟨dropped, hemits⟩ := ih hinside hs.enter
  obtain ⟨rfl, hsteady, hafter⟩ := leave_clean hleave hs
    ⟨hemits.names, hemits.globals, hemits.functions⟩ hemits.inside hemits.marks
  split at h
  · next hends =>
      obtain ⟨rfl, rfl⟩ := clean_pure.mp h
      exact ⟨hsteady, fun u hu hsites => .leaving hends (hemits.code u (hu.mono hafter) hsites)⟩
  · next hends =>
      obtain ⟨rfl, rfl⟩ := clean_pure.mp h
      exact ⟨hsteady, fun u hu hsites =>
        .block (by simpa using hends) (hemits.code u (hu.mono hafter) hsites)⟩

/-- What the start of a loop declares is dropped behind the loop. -/
theorem startCode_clean {ctx : FunctionContext} {outer inner : List Symbol} {start : LoopStart}
    {s s' : GenState} {r : Option Symbol × Code} (h : Clean (startCode start) s r s')
    (hproper : start.Proper) (hs : Inside ctx outer inner s) :
    EmitsStmt ctx outer inner (.start start) start.callSites s (inner ++ r.1.toList) r.2 s' := by
  unfold startCode at h
  split at h
  · obtain ⟨rfl, rfl⟩ := clean_pure.mp h
    refine ⟨.refl _, by simpa using hs, rfl, fun u _ _ => ?_⟩
    simpa using StmtCode.startNothing
  · next d =>
      obtain ⟨declared, s₁, hlocal, h⟩ := h.bind_inv (attentive_localVar d)
      obtain ⟨rfl, rfl⟩ := clean_pure.mp h
      have hemits := localVar_clean hlocal hproper hs
      exact ⟨hemits.toGrows, hemits.inside, hemits.marks, fun u hu hsites =>
        .startDeclare (hemits.code u hu hsites)⟩
  · next e =>
      obtain ⟨code, s₁, hcode, h⟩ := h.bind_inv (attentive_expr _ _)
      obtain ⟨rfl, rfl⟩ := clean_pure.mp h
      have hemits := expr_clean .effect e hproper hcode hs.toScoped
      refine ⟨hemits.toGrows, by simpa using hs.steady hemits.toSteady, by rw [hemits.scope],
        fun u hu hsites => ?_⟩
      simp only [Option.toList_none, List.append_nil]
      exact .startEvaluate (hs.symbols ▸ hemits.code u hu hsites)

/-- The variable that a loop started with is freed behind it. -/
theorem releaseCode_clean {ctx : FunctionContext} {outer : List Symbol} {started? : Option Symbol}
    {s s' : GenState} {code : Code} (h : Clean (releaseCode started?) s code s')
    (hs : Inside ctx outer started?.toList s) :
    code = freeCode (ids started?.toList).reverse ∧ Grows s s' ∧ Inside ctx outer [] s'
      ∧ s'.scope.marks = s.scope.marks := by
  unfold releaseCode at h
  split at h
  · obtain ⟨rfl, rfl⟩ := clean_pure.mp h
    exact ⟨rfl, .refl _, hs, rfl⟩
  · next symbol =>
      simp only [clean_modify_bind, clean_pure] at h
      obtain ⟨rfl, rfl⟩ := h
      have hsymbols : (s.scope.remove symbol.name).symbols = outer := by
        simp [SymbolTable.remove, hs.symbols]
      refine ⟨rfl, ⟨fun _ _ h => h, rfl, rfl⟩, ⟨⟨?_, ?_, hs.globals⟩, hs.function, ?_, hs.start⟩,
        rfl⟩
      · rw [hsymbols]
        exact Named.left (hs.symbols ▸ hs.named)
      · intro other hmem
        rw [hsymbols] at hmem
        exact hs.registered other (by rw [hs.symbols]; exact List.mem_append_left _ hmem)
      · rw [hsymbols, List.append_nil]

/-- The code of the last branch without a condition. -/
def ElseCode (u : Tables) (ctx : FunctionContext) (outer inner : List Symbol) :
    Alternatives → Code → Prop
  | .none, code => code = []
  | .otherwise _ _ body, code => StmtCode u ctx outer inner (.block body) inner code
  | .elseIf _ _ _ _ rest, code => ElseCode u ctx outer inner rest code

/-- The compiled bodies of the branches with a condition. -/
inductive BranchesCode (u : Tables) (ctx : FunctionContext) (outer inner : List Symbol) :
    Alternatives → List Branch → Prop
  | none : BranchesCode u ctx outer inner .none []
  | otherwise {name t body} : BranchesCode u ctx outer inner (.otherwise name t body) []
  | elseIf {name t condition body rest code more} :
    StmtCode u ctx outer inner (.block body) inner code →
    BranchesCode u ctx outer inner rest more →
    BranchesCode u ctx outer inner (.elseIf name t condition body rest)
      (⟨t, condition, code⟩ :: more)

/-- Laying out branches compiles their conditions, the last one first. -/
theorem layBranches_clean {tail : Code} {s : GenState} (hs : Scoped s) :
    (branches : List Branch) → (∀ b ∈ branches, b.condition.Proper) → ∀ {code s'},
    Clean (layBranches tail branches) s code s' → Steady s s'
  | [], _, code, s', h => by
      obtain ⟨rfl, rfl⟩ := clean_pure.mp h
      exact .refl _
  | b :: rest, hproper, code, s', h => by
      unfold layBranches at h
      obtain ⟨others, s₁, hothers, h⟩ := h.bind_inv (attentive_layBranches _ _)
      obtain ⟨test, s₂, htest, h⟩ := h.bind_inv (attentive_expr _ _)
      obtain ⟨rfl, -, -⟩ := branchCode_clean h
      have hrest := layBranches_clean hs rest (fun b hb => hproper b (by simp [hb])) hothers
      exact hrest.trans
        (expr_clean .truth _ (hproper b (by simp)) htest (hs.steady hrest)).toSteady

/-- The first branch of a layout, in front of the others. -/
theorem layBranches_cons_clean {tail : Code} {b : Branch} {rest : List Branch} {s s' : GenState}
    {code : Code} (h : Clean (layBranches tail (b :: rest)) s code s')
    (hproper : ∀ b' ∈ b :: rest, b'.condition.Proper) (hs : Scoped s) :
    ∃ s₁ others test, Clean (layBranches tail rest) s others s₁ ∧ Steady s s₁
      ∧ Emits (.one .truth b.condition) b.condition.callSites s₁ test s'
      ∧ BranchFits b.body others ∧ code = branchLayout test b.body others := by
  unfold layBranches at h
  obtain ⟨others, s₁, hothers, h⟩ := h.bind_inv (attentive_layBranches _ _)
  obtain ⟨test, s₂, htest, h⟩ := h.bind_inv (attentive_expr _ _)
  obtain ⟨rfl, hfits, rfl⟩ := branchCode_clean h
  have hsteady := layBranches_clean hs rest (fun b hb => hproper b (by simp [hb])) hothers
  exact ⟨s₁, others, test, hothers, hsteady,
    expr_clean .truth _ (hproper b (by simp)) htest (hs.steady hsteady), hfits, rfl⟩

/-- The layout of the later branches is that of the chain, whatever has been compiled in between. -/
theorem alternatives_clean {u : Tables} {ctx : FunctionContext} {outer inner : List Symbol}
    {last : Code} {s : GenState} (hs : Inside ctx outer inner s) {rest : Alternatives}
    {others : List Branch} (hothers : BranchesCode u ctx outer inner rest others) :
    ElseCode u ctx outer inner rest last → (∀ b ∈ others, b.condition.Proper) →
    (∀ site ∈ rest.callSites, site ∈ u.calls) → ∀ {code s'},
    Clean (layBranches last others) s code s' → Fits u s' →
    StmtCode u ctx outer inner (.otherwise rest) inner code := by
  induction hothers with
  | none =>
      rintro rfl _ _ code s' h _
      obtain ⟨rfl, rfl⟩ := clean_pure.mp h
      exact .otherwiseNone
  | otherwise =>
      intro hlast _ _ code s' h _
      obtain ⟨rfl, rfl⟩ := clean_pure.mp h
      exact .otherwise hlast
  | elseIf hbody hmore ih =>
      intro hlast hproper hsites code s' h hu
      simp only [Alternatives.callSites, List.mem_append] at hsites
      obtain ⟨s₁, tail, test, htail, hsteady, htest, hfits, rfl⟩ :=
        layBranches_cons_clean h hproper hs.toScoped
      refine .elseIf ?_ hbody ?_ hfits
      · rw [← hs.symbols]
        exact htest.code_of hsteady (.refl _) hu fun site hmem => hsites site (.inl (.inl hmem))
      · exact ih hlast (fun b hb => hproper b (by simp [hb]))
          (fun site hmem => hsites site (.inr hmem)) htail (hu.mono htest.toGrows)

/-- Every clean run of the last branch emits its code and stays in the scope. -/
def EmittedElse (ctx : FunctionContext) (rest : Alternatives) : Prop :=
  ∀ {outer inner s code s'}, Clean (elseCode ctx rest) s code s' → Inside ctx outer inner s →
    Steady s s' ∧ ∀ u, Fits u s' → (∀ site ∈ rest.callSites, site ∈ u.calls) →
      ElseCode u ctx outer inner rest code

/-- Every clean run of the bodies of branches emits their code and stays in the scope. -/
def EmittedBranches (ctx : FunctionContext) (rest : Alternatives) : Prop :=
  ∀ {outer inner s others s'}, Clean (branches ctx rest) s others s' → Inside ctx outer inner s →
    Steady s s' ∧ (∀ b ∈ others, b.condition.Proper)
      ∧ ∀ u, Fits u s' → (∀ site ∈ rest.callSites, site ∈ u.calls) →
        BranchesCode u ctx outer inner rest others

section

variable {ctx : FunctionContext}

/-- A declaration statement is its local variable. -/
theorem emittedStmt_declare {d : VarDecl} (hproper : d.Proper) : EmittedStmt ctx (.declare d) := by
  intro outer inner s code s' h hs
  unfold Gen.stmt at h
  obtain ⟨declared, s₁, hlocal, h⟩ := h.bind_inv (attentive_localVar d)
  obtain ⟨rfl, rfl⟩ := clean_pure.mp h
  exact ⟨_, localVar_clean hlocal hproper hs⟩

/-- Behind a return there is its jump, a condition on its own sets the flag, and anything else is
evaluated for its effect. -/
theorem emittedStmt_expr {name : Text} {t : Token} {kind : ExprKind} {value? : Option Expr}
    (hvalue : ∀ e, value? = some e → e.Proper) : EmittedStmt ctx (.expr name t kind value?) := by
  intro outer inner s code s' h hs
  unfold Gen.stmt at h
  simp only [Stmt.callSites]
  split at h
  · obtain ⟨hsteady, hcode⟩ := returnCode_clean h hvalue hs.toScoped
    exact ⟨inner, hsteady.toGrows, hs.steady hsteady, by rw [hsteady.scope], fun u hu hsites =>
      .return_ (hs.symbols ▸ hcode u hu hsites)⟩
  · next e =>
      have hemits := expr_clean .truth e (hvalue e rfl) h hs.toScoped
      exact ⟨inner, hemits.toGrows, hs.steady hemits.toSteady, by rw [hemits.scope],
        fun u hu hsites => .truth (hs.symbols ▸ hemits.code u hu hsites)⟩
  · next e hreturn hcondition =>
      have hemits := expr_clean .effect e (hvalue e rfl) h hs.toScoped
      exact ⟨inner, hemits.toGrows, hs.steady hemits.toSteady, by rw [hemits.scope],
        fun u hu hsites => .effect hreturn hcondition (hs.symbols ▸ hemits.code u hu hsites)⟩
  · next hreturn =>
      obtain ⟨rfl, rfl⟩ := clean_pure.mp h
      exact ⟨inner, .refl _, hs, rfl, fun u _ _ => .nothing hreturn⟩

/-- The bodies are compiled before the tests, the last one first of all, and the tests from the back. -/
theorem emittedStmt_ifElse {name : Text} {t : Token} {condition : Expr} {body : List Stmt}
    {rest : Alternatives} (hcondition : condition.Proper) (hbody : AllEmittedStmts ctx body)
    (hlast : EmittedElse ctx rest) (hrest : EmittedBranches ctx rest) :
    EmittedStmt ctx (.ifElse name t condition body rest) := by
  intro outer inner s code s' h hs
  unfold Gen.stmt at h
  simp only [Stmt.callSites]
  -- the five runs in the order of compiling: last branch, first body, other bodies, layout
  obtain ⟨last, s₁, hrun₁, h⟩ := h.bind_inv (attentive_elseCode ctx rest)
  obtain ⟨first, s₂, hrun₂, h⟩ :=
    h.bind_inv (attentive_inBlock body (attentive_stmts ctx body))
  obtain ⟨others, s₃, hrun₃, h⟩ := h.bind_inv (attentive_branches ctx rest)
  obtain ⟨chain, s₄, hchain, h⟩ := h.bind_inv (attentive_layBranches _ _)
  obtain ⟨rfl, rfl⟩ := clean_pure.mp h
  obtain ⟨hsteady₁, hlast⟩ := hlast hrun₁ hs
  have hs₁ := hs.steady hsteady₁
  obtain ⟨hsteady₂, hfirst⟩ := inBlock_clean hrun₂ hs₁ hbody
  have hs₂ := hs₁.steady hsteady₂
  obtain ⟨hsteady₃, hconditions, hothers⟩ := hrest hrun₃ hs₂
  have hs₃ := hs₂.steady hsteady₃
  -- the layout of the whole chain begins with the first branch
  obtain ⟨s₅, tail, test, htail, hsteady₅, htest, hfits, rfl⟩ :=
    layBranches_cons_clean hchain (by simpa using ⟨hcondition, hconditions⟩) hs₃.toScoped
  have hsteady₄ := hsteady₅.trans htest.toSteady
  have hsteady := (hsteady₁.trans hsteady₂).trans (hsteady₃.trans hsteady₄)
  refine ⟨inner, hsteady.toGrows, hs.steady hsteady, by rw [hsteady.scope],
    fun u hu hsites => ?_⟩
  simp only [List.mem_append] at hsites
  -- the tables that know the end know every state on the way
  have hu₃ := hu.mono hsteady₄.toGrows
  have hu₂ := hu₃.mono hsteady₃.toGrows
  have hu₁ := hu₂.mono hsteady₂.toGrows
  refine .ifElse ?_ (hfirst u hu₂ fun site hmem => hsites site (.inl (.inr hmem))) ?_ hfits
  · rw [← hs₃.symbols]
    exact htest.code_of hsteady₅ (.refl _) hu fun site hmem => hsites site (.inl (.inl hmem))
  · have hsites' := fun site hmem => hsites site (.inr hmem)
    exact alternatives_clean hs₃ (hothers u hu₃ hsites') (hlast u hu₁ hsites') hconditions
      hsites' htail (hu.mono htest.toGrows)

/-- The block of the start is entered first of all; it is left behind the body and the release of what
the start declared. -/
theorem emittedStmt_loop {name : Text} {t : Token} {kind : LoopKind} {condition? step? : Option Expr}
    {start : LoopStart} {body : List Stmt} (hcondition : ∀ e, condition? = some e → e.Proper)
    (hstep : ∀ e, step? = some e → e.Proper) (hstart : start.Proper)
    (hbody : AllEmittedStmts ctx body) :
    EmittedStmt ctx (.loop name t kind condition? step? start body) := by
  intro outer inner s code s' h hs
  have hcondition : (condition?.getD (alwaysTrue t)).Proper := by
    cases condition? with
    | none => simp [alwaysTrue, Expr.Proper]
    | some e => exact hcondition e rfl
  unfold Gen.stmt enter at h
  simp only [Stmt.callSites, clean_modify_bind] at h ⊢
  obtain ⟨started, s₁, hstarted, h⟩ := h.bind_inv (attentive_startCode start)
  obtain ⟨inside, s₂, hinside, h⟩ :=
    h.bind_inv (attentive_inBlock body (attentive_stmts ctx body))
  obtain ⟨around, s₃, haround, h⟩ := h.bind_inv (attentive_loopCode _ _ _ _ _)
  obtain ⟨release, s₄, hrelease, h⟩ := h.bind_inv (attentive_releaseCode _)
  obtain ⟨found, s₅, hleave, h⟩ := h.bind_inv attentive_leave
  obtain ⟨rfl, rfl⟩ := clean_pure.mp h
  have hstarted := startCode_clean hstarted hstart hs.enter
  simp only [List.nil_append] at hstarted
  -- the start, the body, the code around it and the freeing code, each in the scope that the one
  -- before leaves
  have hs₁ := hstarted.inside
  obtain ⟨hsteady₂, hinside⟩ := inBlock_clean hinside hs₁ hbody
  have hs₂ := hs₁.steady hsteady₂
  obtain ⟨hsteady₃, next, test, rfl, hfits, haround⟩ :=
    loopCode_clean haround hcondition hstep hs₂.toScoped
  have hs₃ := hs₂.steady hsteady₃
  obtain ⟨rfl, hgrows₄, hs₄, hmarks₄⟩ := releaseCode_clean hrelease hs₃
  have hsteady₁₃ := hsteady₂.trans hsteady₃
  have hgrows₁₄ := hsteady₁₃.toGrows.trans hgrows₄
  -- the block of the loop is the one that was entered, so leaving it restores the scope
  have hmarks : s₄.scope.marks = s.scope.enter.marks := by
    rw [hmarks₄, hsteady₁₃.scope, hstarted.marks]
  have hgrows : Grows s s₁ := ⟨hstarted.names, hstarted.globals, hstarted.functions⟩
  obtain ⟨-, hsteady, hgrows₅⟩ := leave_clean hleave hs (hgrows.trans hgrows₁₄) hs₄ hmarks
  refine ⟨inner, hsteady.toGrows, hs.steady hsteady, by rw [hsteady.scope],
    fun u hu hsites => ?_⟩
  simp only [List.mem_append] at hsites
  -- the tables of the unit know what the generator knew at each of these stages
  have hu₃ := (hu.mono hgrows₅).mono hgrows₄
  have hu₂ := hu₃.mono hsteady₃.toGrows
  have hu₁ := hu₂.mono hsteady₂.toGrows
  obtain ⟨hnext, htest⟩ := haround u hu₃ fun site hmem => by
    rcases List.mem_append.mp hmem with hmem | hmem
    · exact hsites site (.inl (.inl (.inr hmem)))
    · cases condition? with
      -- the word for truth calls nothing
      | none => simp [alwaysTrue, Expr.callSites] at hmem
      | some e => exact hsites site (.inl (.inl (.inl hmem)))
  rw [hs₂.symbols] at hnext htest
  exact .loop (hstarted.code u hu₁ fun site hmem => hsites site (.inl (.inr hmem)))
    (hinside u hu₂ fun site hmem => hsites site (.inr hmem)) hnext htest hfits

theorem allEmittedStmts_nil : AllEmittedStmts ctx [] := by
  intro outer inner s code s' h hs
  unfold stmts at h
  obtain ⟨rfl, rfl⟩ := clean_pure.mp h
  exact ⟨inner, .refl _, hs, rfl, fun u _ _ => .nil⟩

/-- The statements behind the first are emitted in the scope that it leaves. -/
theorem allEmittedStmts_cons {first : Stmt} {rest : List Stmt} (hfirst : EmittedStmt ctx first)
    (hrest : AllEmittedStmts ctx rest) : AllEmittedStmts ctx (first :: rest) := by
  intro outer inner s code s' h hs
  unfold stmts at h
  simp only [Stmt.allCallSites]
  obtain ⟨code, s₁, hcode, h⟩ := h.bind_inv (attentive_stmt ctx first)
  obtain ⟨more, s₂, hmore, h⟩ := h.bind_inv (attentive_stmts ctx rest)
  obtain ⟨rfl, rfl⟩ := clean_pure.mp h
  obtain ⟨inner₁, hcode⟩ := hfirst hcode hs
  obtain ⟨inner₂, hmore⟩ := hrest hmore hcode.inside
  refine ⟨inner₂, hcode.toGrows.trans hmore.toGrows, hmore.inside,
    hmore.marks.trans hcode.marks, fun u hu hsites => ?_⟩
  have hfirst := hcode.code u (hu.mono hmore.toGrows) fun site hmem =>
    hsites site (by simp [hmem])
  have hrest := hmore.code u hu fun site hmem => hsites site (by simp [hmem])
  exact .cons hfirst hrest

theorem emittedElse_none : EmittedElse ctx .none := by
  intro outer inner s code s' h hs
  unfold elseCode at h
  obtain ⟨rfl, rfl⟩ := clean_pure.mp h
  exact ⟨.refl _, fun u _ _ => rfl⟩

/-- The last branch is emitted as a block. -/
theorem emittedElse_otherwise {name : Text} {t : Token} {body : List Stmt}
    (hbody : AllEmittedStmts ctx body) : EmittedElse ctx (.otherwise name t body) := by
  intro outer inner s code s' h hs
  unfold elseCode at h
  simp only [Alternatives.callSites]
  exact inBlock_clean h hs hbody

/-- A further branch passes on to the last one. -/
theorem emittedElse_elseIf {name : Text} {t : Token} {condition : Expr} {body : List Stmt}
    {rest : Alternatives} (hrest : EmittedElse ctx rest) :
    EmittedElse ctx (.elseIf name t condition body rest) := by
  intro outer inner s code s' h hs
  unfold elseCode at h
  simp only [Alternatives.callSites]
  obtain ⟨hsteady, hcode⟩ := hrest h hs
  exact ⟨hsteady, fun u hu hsites => hcode u hu fun site hmem => hsites site (by simp [hmem])⟩

theorem emittedBranches_none : EmittedBranches ctx .none := by
  intro outer inner s others s' h hs
  unfold branches at h
  obtain ⟨rfl, rfl⟩ := clean_pure.mp h
  exact ⟨.refl _, by simp, fun u _ _ => .none⟩

/-- The body behind the last else is no branch; `elseCode` compiles it. -/
theorem emittedBranches_otherwise {name : Text} {t : Token} {body : List Stmt} :
    EmittedBranches ctx (.otherwise name t body) := by
  intro outer inner s others s' h hs
  unfold branches at h
  obtain ⟨rfl, rfl⟩ := clean_pure.mp h
  exact ⟨.refl _, by simp, fun u _ _ => .otherwise⟩

/-- Each body is emitted as a block, its condition kept for the layout. -/
theorem emittedBranches_elseIf {name : Text} {t : Token} {condition : Expr} {body : List Stmt}
    {rest : Alternatives} (hcondition : condition.Proper) (hbody : AllEmittedStmts ctx body)
    (hrest : EmittedBranches ctx rest) :
    EmittedBranches ctx (.elseIf name t condition body rest) := by
  intro outer inner s others s' h hs
  unfold branches at h
  simp only [Alternatives.callSites]
  obtain ⟨code, s₁, hcode, h⟩ := h.bind_inv (attentive_inBlock body (attentive_stmts ctx body))
  obtain ⟨more, s₂, hmore, h⟩ := h.bind_inv (attentive_branches ctx rest)
  obtain ⟨rfl, rfl⟩ := clean_pure.mp h
  obtain ⟨hsteady₁, hcode⟩ := inBlock_clean hcode hs hbody
  obtain ⟨hsteady₂, hconditions, hmore⟩ :=
    hrest hmore (hs.steady hsteady₁)
  refine ⟨hsteady₁.trans hsteady₂, by simpa using ⟨hcondition, hconditions⟩,
    fun u hu hsites => .elseIf ?_ ?_⟩
  · exact hcode u (hu.mono hsteady₂.toGrows) fun site hmem => hsites site (by simp [hmem])
  · exact hmore u hu fun site hmem => hsites site (by simp [hmem])

end

mutual

/-- Code of a clean run, by recursion over the statement, with one lemma for each constructor. -/
theorem stmt_clean (ctx : FunctionContext) : (stmt : Stmt) → stmt.Proper → EmittedStmt ctx stmt
  | .declare d, h => emittedStmt_declare (by simpa only [Stmt.Proper] using h)
  | .expr name t kind value?, h => emittedStmt_expr (by simpa only [Stmt.Proper] using h)
  | .ifElse name t condition body rest, h => by
      obtain ⟨hcondition, hbody, hrest⟩ : condition.Proper ∧ Stmt.AllProper body ∧ rest.Proper := by
        simpa only [Stmt.Proper] using h
      exact emittedStmt_ifElse hcondition (stmts_clean ctx body hbody) (elseCode_clean ctx rest hrest)
        (branches_clean ctx rest hrest)
  | .loop name t kind condition? step? start body, h => by
      obtain ⟨hcondition, hstep, hstart, hbody⟩ : (∀ e, condition? = some e → e.Proper)
          ∧ (∀ e, step? = some e → e.Proper) ∧ start.Proper ∧ Stmt.AllProper body := by
        simpa only [Stmt.Proper] using h
      exact emittedStmt_loop hcondition hstep hstart (stmts_clean ctx body hbody)

theorem stmts_clean (ctx : FunctionContext) :
    (body : List Stmt) → Stmt.AllProper body → AllEmittedStmts ctx body
  | [], _ => allEmittedStmts_nil
  | first :: rest, h => by
      obtain ⟨hfirst, hrest⟩ : first.Proper ∧ Stmt.AllProper rest := by
        simpa only [Stmt.AllProper] using h
      exact allEmittedStmts_cons (stmt_clean ctx first hfirst) (stmts_clean ctx rest hrest)

theorem elseCode_clean (ctx : FunctionContext) :
    (rest : Alternatives) → rest.Proper → EmittedElse ctx rest
  | .none, _ => emittedElse_none
  | .otherwise name t body, h =>
      emittedElse_otherwise (stmts_clean ctx body (by simpa only [Alternatives.Proper] using h))
  | .elseIf name t condition body rest, h => by
      obtain ⟨-, -, hrest⟩ : condition.Proper ∧ Stmt.AllProper body ∧ rest.Proper := by
        simpa only [Alternatives.Proper] using h
      exact emittedElse_elseIf (elseCode_clean ctx rest hrest)

theorem branches_clean (ctx : FunctionContext) :
    (rest : Alternatives) → rest.Proper → EmittedBranches ctx rest
  | .none, _ => emittedBranches_none
  | .otherwise name t body, _ => emittedBranches_otherwise
  | .elseIf name t condition body rest, h => by
      obtain ⟨hcondition, hbody, hrest⟩ : condition.Proper ∧ Stmt.AllProper body ∧ rest.Proper := by
        simpa only [Alternatives.Proper] using h
      exact emittedBranches_elseIf hcondition (stmts_clean ctx body hbody)
        (branches_clean ctx rest hrest)

end

end TickScript.Gen
