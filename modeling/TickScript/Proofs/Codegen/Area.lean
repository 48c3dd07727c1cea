import TickScript.Proofs.Area
import TickScript.Proofs.Faithful

/-!
# The places that the generator reports

The generator points into the area of the declarations that it is given. What it knows about names
does not matter, since it looks there for types only; the one token that it makes up, the condition
of a loop without one, takes the place of the loop.

The lemmas come in the order in which the generator is defined. The two recursive parts, expressions
and statements, are inductions over the syntax tree with the same case split as the generator; in
each case the token that a report names is one of the piece itself and lies in the area by what the
tree was assumed to satisfy. The branches of an `if` are compiled to a list first and laid out
behind that, so they need an instance of their own (`locatedBranch`).
-/

namespace TickScript

open Stage

namespace Gen

variable {A : Area}

theorem pointsInto_register {t : Token} (ht : LiesIn A t) (id : Id) (name : Text) :
    PointsInto A (register t id name) := by
  unfold register
  refine pointsInto_bind pointsInto_get fun s => ?_
  split
  · split
    · exact pointsInto_report ht
    · exact pointsInto_pure _
  · exact pointsInto_modify _

/-- Declaring a local reports nothing by itself: whoever declares it reports a clash. -/
theorem pointsInto_declareLocal (name : Text) (type : VarType) :
    PointsInto A (declareLocal name type) := by
  unfold declareLocal
  refine pointsInto_bind pointsInto_get fun s => ?_
  split
  · exact points_breakDown
  · exact pointsInto_bind (pointsInto_set _) fun _ => pointsInto_pure _

theorem pointsInto_enter : PointsInto A enter := pointsInto_modify _

theorem pointsInto_leave : PointsInto A leave := by
  refine pointsInto_bind pointsInto_get fun s => ?_
  exact pointsInto_bind (pointsInto_set _) fun _ => pointsInto_pure _

theorem pointsInto_resolve {t : Token} (ht : LiesIn A t) : PointsInto A (resolve t) := by
  unfold resolve
  refine pointsInto_bind pointsInto_get fun s => ?_
  split
  · exact pointsInto_pure _
  · split
    · exact pointsInto_pure _
    · -- a name that stands for no variable is reported either way
      split
      · exact (pointsInto_report ht).map
      · exact (pointsInto_report ht).map

theorem pointsInto_jump {t : Token} (ht : LiesIn A t) (op : Opcode) (distance : Int) :
    PointsInto A (jump t op distance) := by
  unfold jump
  split
  · exact pointsInto_pure _
  · exact (pointsInto_report ht).map

/-- What is wrong with a literal is reported at the literal. -/
theorem pointsInto_literalValue {e : Expr} (he : LiesIn A e) :
    PointsInto A (literalValue e) := by
  unfold literalValue
  rw [literalOf_eq, pure_bind]
  split
  · exact pointsInto_pure _
  · have hposition : LiesIn A e.position := Expr.liesIn_position e he
    exact (pointsInto_report hposition).map

theorem pointsInto_wordValue {t : Token} (ht : LiesIn A t) :
    PointsInto A (wordValue t) := by
  unfold wordValue
  split
  case h_5 => exact (pointsInto_report ht).map
  all_goals exact pointsInto_pure _

theorem pointsInto_stepCode {operator target : Token} (htarget : LiesIn A target)
    (after : Bool) (want : Want) : PointsInto A (stepCode operator target after want) := by
  unfold stepCode
  refine pointsInto_bind (pointsInto_resolve htarget) fun found? => ?_
  split
  · exact pointsInto_pure _
  · dsimp only
    split
    · exact pointsInto_pure _
    · split
      · exact pointsInto_pure _
      · exact pointsInto_pure _

theorem pointsInto_fits {e : Expr} (he : LiesIn A e) (name : Text) (type : VarType) :
    PointsInto A (fits name e type) := by
  unfold fits
  split
  · rw [literalOf_eq, pure_bind]
    split
    · exact pointsInto_pure _
    · have hposition : LiesIn A e.position := Expr.liesIn_position e he
      exact (pointsInto_report hposition).map
  · exact pointsInto_pure _

theorem pointsInto_calledFunction {callee : Token} (hcallee : LiesIn A callee)
    (count : Nat) : PointsInto A (calledFunction callee count) := by
  have hrefuse (cause : Cause) : PointsInto A
      (liftM (report callee cause) >>= fun _ => pure none : Gen (Option (Option FuncDecl))) :=
    (pointsInto_report hcallee).map
  unfold calledFunction
  refine pointsInto_bind pointsInto_get fun s => ?_
  dsimp only
  split
  · exact hrefuse _
  · split
    · split
      · exact hrefuse _
      · exact pointsInto_pure _
    · exact pointsInto_pure _

/-- An argument of the wrong type is reported at the argument. -/
theorem pointsInto_checkArgument {e : Expr} (he : LiesIn A e) (f? : Option FuncDecl)
    (index : Nat) : PointsInto A (checkArgument f? index e) := by
  have hposition : LiesIn A e.position := Expr.liesIn_position e he
  unfold checkArgument
  split
  · exact pointsInto_pure _
  · split
    · split
      · exact points_breakDown
      · rw [literalOf_eq, pure_bind]
        split
        · exact pointsInto_pure _
        · exact pointsInto_report hposition
    · exact pointsInto_pure _

/-! ## Expressions

What an expression reports itself stands at one of its own tokens; the rest is reported by its
parts, which lie in the area as well. -/

mutual

theorem pointsInto_expr (want : Want) : (e : Expr) → LiesIn A e → PointsInto A (expr want e)
  | .ident t, h => by
      unfold expr
      refine pointsInto_bind (pointsInto_resolve h) fun found? => ?_
      split
      · exact pointsInto_pure _
      · exact pointsInto_pure _
  | .number t, h => by
      unfold expr
      exact (pointsInto_literalValue h).map
  | .string opening value, _ => by
      unfold expr
      exact pointsInto_pure _
  | .word t, h => by
      unfold expr
      exact (pointsInto_wordValue h).map
  | .unary operator operand, h => by
      have hoperand : PointsInto A (expr .value operand) := pointsInto_expr .value operand h.2
      unfold expr
      split
      · -- a signed number is a literal of its own
        split
        · exact (pointsInto_literalValue h).map
        · exact hoperand.map
      · exact hoperand.map
      · exact hoperand.map
      · exact hoperand.map
  | .step operator target after, h => by
      unfold expr
      exact pointsInto_stepCode h.2 after want
  -- both sides lie in the area, and what joins them reports nothing
  | .binary operator left right, h => by
      have hleft (want : Want) := pointsInto_expr want left h.2.1
      have hright (want : Want) := pointsInto_expr want right h.2.2
      unfold expr
      split
      · exact pointsInto_bind (hleft .value) fun _ => (hright .value).map
      · exact pointsInto_bind (hleft .truth) fun _ => (hright .truth).map
      · exact pointsInto_bind (hleft .value) fun _ => (hright .value).map
  | .assign operator target value, h => by
      obtain ⟨-, htarget, hlies⟩ := h
      have hvalue : PointsInto A (expr .value value) := pointsInto_expr .value value hlies
      unfold expr
      -- a name that is not found is reported at the target
      refine pointsInto_bind (pointsInto_resolve htarget) fun found? => ?_
      split
      · exact pointsInto_pure _
      · dsimp only
        split
        · -- a value of the wrong type is reported at the value
          refine pointsInto_bind (pointsInto_fits hlies _ _) fun fitting => ?_
          split
          · exact hvalue.map
          · exact pointsInto_pure _
        · exact hvalue.map
  | .call callee args, h => by
      obtain ⟨hcallee, hargs⟩ := Expr.liesIn_call.1 h
      have harguments (f? : Option FuncDecl) : PointsInto A (arguments f? 0 args) :=
        pointsInto_arguments f? 0 args hargs
      unfold expr
      split
      · split
        · exact (pointsInto_report hcallee).map
        · exact (harguments none).map
      · -- the function may be unknown, or take another number of arguments
        refine pointsInto_bind (pointsInto_calledFunction hcallee _) fun found? => ?_
        split
        · exact pointsInto_pure _
        · refine pointsInto_bind (harguments _) fun code => ?_
          exact (pointsInto_register hcallee _ _).map
  | .index target subscript, h => by
      unfold expr
      exact (pointsInto_report (Expr.liesIn_position target h.1)).map

theorem pointsInto_arguments (f? : Option FuncDecl) (index : Nat) :
    (args : List Expr) → LiesIn A args → PointsInto A (arguments f? index args)
  | [], _ => by
      unfold arguments
      exact pointsInto_pure _
  | e :: rest, h => by
      obtain ⟨he, hrest⟩ := liesIn_cons.1 h
      unfold arguments
      refine pointsInto_bind (pointsInto_checkArgument he f? index) fun _ => ?_
      refine pointsInto_bind (pointsInto_expr .value e he) fun first => ?_
      exact (pointsInto_arguments f? (index + 1) rest hrest).map

end

/-! ## Statements -/

theorem pointsInto_initialise {init : Expr} (h : LiesIn A init) (symbol : Symbol) :
    PointsInto A (initialise symbol init) := by
  have hrefuse (cause : Cause) :
      PointsInto A (liftM (report init.position cause) >>= fun _ => pure [] : Gen Code) :=
    (pointsInto_report (Expr.liesIn_position init h)).map
  unfold initialise
  dsimp only
  split
  · exact hrefuse _
  · split
    · rw [literalOf_eq, pure_bind]
      split
      · exact pointsInto_pure _
      · exact hrefuse _
    · exact (pointsInto_expr .value init h).map

theorem pointsInto_localVar {d : VarDecl} (h : LiesIn A d) :
    PointsInto A (localVar d) := by
  obtain ⟨ht, hinitial⟩ := h
  unfold localVar
  refine pointsInto_bind pointsInto_get fun s => ?_
  refine pointsInto_reportIf ht ?_
  refine pointsInto_bind (pointsInto_declareLocal _ _) fun declared => ?_
  refine pointsInto_reportIf ht ?_
  refine pointsInto_bind (pointsInto_register ht _ _) fun _ => ?_
  dsimp only
  split
  · exact pointsInto_pure _
  · next init hfound => exact (pointsInto_initialise (hinitial init hfound) _).map

theorem pointsInto_leaveFunction (ctx : FunctionContext) (result : Code)
    (extra : List Id) : PointsInto A (leaveFunction ctx result extra) := by
  exact pointsInto_get.map

theorem pointsInto_returnCode {t : Token} {e? : Option Expr} (ht : LiesIn A t)
    (he : LiesIn A e?) (ctx : FunctionContext) : PointsInto A (returnCode ctx t e?) := by
  have hleave (result : Code) (extra : List Id) : PointsInto A (leaveFunction ctx result extra) :=
    pointsInto_leaveFunction ctx result extra
  cases e? with
  | none =>
      simp only [returnCode]
      split
      · exact hleave _ _
      · split
        · exact pointsInto_bind (pointsInto_report ht) fun _ => hleave _ _
        · exact hleave _ _
  | some e =>
      have he : LiesIn A e := liesIn_some.1 he
      have hposition : LiesIn A e.position := Expr.liesIn_position e he
      simp only [returnCode]
      split
      · exact (pointsInto_report ht).map
      · split
        · rw [literalOf_eq, pure_bind]
          split
          · exact (pointsInto_report hposition).map
          · exact pointsInto_bind (pointsInto_register ht _ _) fun _ => hleave _ _
        · exact pointsInto_bind (pointsInto_expr .value e he) fun _ => hleave _ _

theorem pointsInto_branchCode {t : Token} (ht : LiesIn A t) (test body tail : Code) :
    PointsInto A (branchCode t test body tail) := by
  unfold branchCode
  dsimp only
  refine pointsInto_bind (pointsInto_jump ht _ _) fun enter => ?_
  refine pointsInto_bind (pointsInto_jump ht _ _) fun avoid => ?_
  split
  · exact (pointsInto_jump ht _ _).map
  · exact (pointsInto_pure _).map

instance locatedBranch : Located Branch := ⟨fun A b => LiesIn A b.token ∧ LiesIn A b.condition⟩

theorem pointsInto_layBranches {branches : List Branch} (h : LiesIn A branches)
    (tail : Code) : PointsInto A (layBranches tail branches) := by
  induction branches with
  | nil => exact pointsInto_pure _
  | cons b rest ih =>
      obtain ⟨⟨ht, hcondition⟩, hrest⟩ := liesIn_cons.1 h
      unfold layBranches
      refine pointsInto_bind (ih hrest) fun behind => ?_
      refine pointsInto_bind (pointsInto_expr .truth b.condition hcondition) fun test => ?_
      exact pointsInto_branchCode ht test b.body behind

theorem liesIn_alwaysTrue {t : Token} (ht : LiesIn A t) : LiesIn A (alwaysTrue t) := ht

theorem pointsInto_loopTest {t : Token} {condition : Expr} (ht : LiesIn A t)
    (hcondition : LiesIn A condition) (body : Nat) : PointsInto A (loopTest t condition body) := by
  unfold loopTest
  refine pointsInto_bind (pointsInto_expr .truth condition hcondition) fun test => ?_
  exact (pointsInto_jump ht _ _).map

theorem pointsInto_startCode {start : LoopStart} (h : LiesIn A start) :
    PointsInto A (startCode start) := by
  cases start with
  | nothing => exact pointsInto_pure _
  | declare d => exact (pointsInto_localVar h).map
  | evaluate e => exact (pointsInto_expr .effect e h).map

theorem pointsInto_loopCode {t : Token} {condition : Expr} {step? : Option Expr}
    (ht : LiesIn A t) (hcondition : LiesIn A condition) (hstep : LiesIn A step?) (kind : LoopKind)
    (inner : Code) : PointsInto A (loopCode t kind condition step? inner) := by
  unfold loopCode
  split
  · exact (pointsInto_loopTest ht hcondition _).map
  · -- the loop is laid out in the same way with and without a step
    have hlaid (next : Code) : PointsInto A (jump t .jumpBy (Instr.sizeAll (inner ++ next)) >>=
        fun forward => loopTest t condition (Instr.sizeAll (inner ++ next)) >>= fun test =>
          pure (.plain .saveCompare :: forward ++ (inner ++ next) ++ test
            ++ [.plain .restoreCompare])) :=
      pointsInto_bind (pointsInto_jump ht _ _) fun forward =>
        (pointsInto_loopTest ht hcondition _).map
    split
    · next e => exact pointsInto_bind (pointsInto_expr .effect e (liesIn_some.1 hstep)) hlaid
    · exact pointsInto_bind (pointsInto_pure _) hlaid

theorem pointsInto_releaseCode (started? : Option Symbol) :
    PointsInto A (releaseCode started?) := by
  cases started? with
  | none => exact pointsInto_pure _
  | some symbol => exact (pointsInto_modify _).map

theorem pointsInto_inBlock {code : Gen Code} (h : PointsInto A code) (body : List Stmt) :
    PointsInto A (inBlock body code) := by
  unfold inBlock
  refine pointsInto_bind pointsInto_enter fun _ => ?_
  refine pointsInto_bind h fun inner => ?_
  refine pointsInto_bind pointsInto_leave fun dropped => ?_
  split
  · exact pointsInto_pure _
  · exact pointsInto_pure _

mutual

theorem pointsInto_stmt (ctx : FunctionContext) :
    (s : Stmt) → LiesIn A s → PointsInto A (stmt ctx s)
  | .declare d, h => by
      unfold stmt
      exact (pointsInto_localVar h).map
  | .expr name t kind value?, h => by
      obtain ⟨ht, hvalue⟩ := liesIn_exprStmt.1 h
      unfold stmt
      split
      · exact pointsInto_returnCode ht hvalue ctx
      · exact pointsInto_expr .truth _ (liesIn_some.1 hvalue)
      · exact pointsInto_expr .effect _ (liesIn_some.1 hvalue)
      · exact pointsInto_pure _
  | .ifElse name t condition body rest, h => by
      obtain ⟨ht, hcondition, hbody, hrest⟩ := liesIn_ifElse.1 h
      have hbody := pointsInto_stmts ctx body hbody
      have helse := pointsInto_elseCode ctx rest hrest
      have hbranches := confined_branches ctx rest hrest
      unfold stmt
      refine pointsInto_bind helse fun otherwise => ?_
      refine pointsInto_bind (pointsInto_inBlock hbody body) fun first => ?_
      refine hbranches.bind_pointsInto fun others hothers => ?_
      have hchain : LiesIn A (⟨t, condition, first⟩ :: others : List Branch) :=
        liesIn_cons.2 ⟨⟨ht, hcondition⟩, hothers⟩
      exact (pointsInto_layBranches hchain _).map
  | .loop name t kind condition? step? start body, h => by
      obtain ⟨ht, hcondition, hstep, hstart, hbody⟩ := liesIn_loop.1 h
      -- a loop without a condition is given one in its own place
      have htest : LiesIn A (condition?.getD (alwaysTrue t)) :=
        liesIn_getD hcondition (liesIn_alwaysTrue ht)
      unfold stmt
      refine pointsInto_bind pointsInto_enter fun _ => ?_
      refine pointsInto_bind (pointsInto_startCode hstart) fun started => ?_
      have hblock := pointsInto_inBlock (pointsInto_stmts ctx body hbody) body
      refine pointsInto_bind hblock fun inner => ?_
      refine pointsInto_bind (pointsInto_loopCode ht htest hstep kind inner) fun code => ?_
      refine pointsInto_bind (pointsInto_releaseCode started.1) fun release => ?_
      exact pointsInto_leave.map

theorem pointsInto_stmts (ctx : FunctionContext) :
    (body : List Stmt) → LiesIn A body → PointsInto A (stmts ctx body)
  | [], _ => by
      unfold stmts
      exact pointsInto_pure _
  | s :: rest, h => by
      obtain ⟨hs, hrest⟩ := liesIn_cons.1 h
      unfold stmts
      refine pointsInto_bind (pointsInto_stmt ctx s hs) fun first => ?_
      exact (pointsInto_stmts ctx rest hrest).map

theorem pointsInto_elseCode (ctx : FunctionContext) :
    (rest : Alternatives) → LiesIn A rest → PointsInto A (elseCode ctx rest)
  | .none, _ => by
      unfold elseCode
      exact pointsInto_pure _
  | .otherwise name t body, h => by
      unfold elseCode
      exact pointsInto_inBlock (pointsInto_stmts ctx body (liesIn_otherwise.1 h).2) body
  | .elseIf name t condition body rest, h => by
      unfold elseCode
      exact pointsInto_elseCode ctx rest (liesIn_elseIf.1 h).2.2.2

theorem confined_branches (ctx : FunctionContext) :
    (rest : Alternatives) → LiesIn A rest → Confined A (branches ctx rest)
  | .none, _ => by
      unfold branches
      exact confined_pure liesIn_nil
  | .otherwise name t body, _ => by
      unfold branches
      exact confined_pure liesIn_nil
  | .elseIf name t condition body rest, h => by
      obtain ⟨ht, hcondition, hbody, hrest⟩ := liesIn_elseIf.1 h
      have hbody := pointsInto_stmts ctx body hbody
      have hrest := confined_branches ctx rest hrest
      unfold branches
      refine (pointsInto_inBlock hbody body).bind_confined fun code => ?_
      refine confined_bind hrest fun others hothers => ?_
      exact confined_pure (liesIn_cons.2 ⟨⟨ht, hcondition⟩, hothers⟩)

end

/-! ## Declarations and sections -/

theorem pointsInto_declareFunction {f : FuncDecl} (h : LiesIn A f) :
    PointsInto A (declareFunction f) := by
  have ht : LiesIn A f.token := h.1
  unfold declareFunction
  refine pointsInto_bind pointsInto_get fun s => ?_
  split
  · exact pointsInto_report ht
  · split
    · exact pointsInto_bind (pointsInto_register ht _ _) fun _ => pointsInto_modify _
    · split
      · exact pointsInto_report ht
      · split
        · exact pointsInto_report ht
        · split
          · exact pointsInto_modify _
          · exact pointsInto_pure _

theorem pointsInto_declareVariable {d : VarDecl} (h : LiesIn A d) :
    PointsInto A (declareVariable d) := by
  have ht : LiesIn A d.token := h.1
  unfold declareVariable
  refine pointsInto_bind pointsInto_get fun s => ?_
  split
  · exact pointsInto_report ht
  · exact pointsInto_bind (pointsInto_register ht _ _) fun _ => pointsInto_modify _

theorem pointsInto_declareAll {program : List Decl} (h : LiesIn A program) :
    PointsInto A (declareAll program) := by
  induction program with
  | nil => exact pointsInto_pure _
  | cons d rest ih =>
      obtain ⟨hd, hrest⟩ := liesIn_cons.1 h
      unfold declareAll
      cases d with
      | field d => exact pointsInto_bind (pointsInto_declareVariable hd) fun _ => ih hrest
      | var d => exact pointsInto_bind (pointsInto_declareVariable hd) fun _ => ih hrest
      | function f => exact pointsInto_bind (pointsInto_declareFunction hd) fun _ => ih hrest

theorem pointsInto_variableSection {d : VarDecl} (h : LiesIn A d) (kind : SectionKind) :
    PointsInto A (variableSection kind d) := by
  unfold variableSection
  dsimp only
  split
  · exact pointsInto_pure _
  · next init hinitial =>
      have hinit : LiesIn A init := h.2 init hinitial
      have hrefuse (cause : Cause) : PointsInto A
          (liftM (report init.position cause) >>= fun _ => pure none : Gen (Option Section)) :=
        (pointsInto_report (Expr.liesIn_position init hinit)).map
      split
      · exact pointsInto_pure _
      · split
        · rw [literalOf_eq, pure_bind]
          split
          · exact pointsInto_pure _
          · exact hrefuse _
        · exact hrefuse _

theorem pointsInto_declareParams {params : List Param} (h : LiesIn A params) :
    PointsInto A (declareParams params) := by
  induction params with
  | nil => exact pointsInto_pure _
  | cons p rest ih =>
      obtain ⟨ht, hrest⟩ := liesIn_cons.1 h
      unfold declareParams
      refine pointsInto_bind (pointsInto_declareLocal _ _) fun declared => ?_
      refine pointsInto_reportIf ht ?_
      refine pointsInto_bind (pointsInto_register ht _ _) fun _ => ?_
      exact (ih hrest).map

theorem pointsInto_functionCode {f : FuncDecl} {body : List Stmt} (h : LiesIn A f)
    (hbody : LiesIn A body) : PointsInto A (functionCode f body) := by
  obtain ⟨ht, hparams, -⟩ := h
  unfold functionCode
  refine pointsInto_bind (pointsInto_modify _) fun _ => ?_
  refine pointsInto_bind (pointsInto_declareParams hparams) fun params => ?_
  refine pointsInto_bind (pointsInto_stmts _ body hbody) fun code => ?_
  have hreturn : PointsInto A (returnCode ⟨f.name, f.returnType⟩ f.token none) :=
    pointsInto_returnCode ht liesIn_none _
  split
  · exact (pointsInto_pure _).map
  · exact hreturn.map

theorem pointsInto_declSection {d : Decl} (h : LiesIn A d) :
    PointsInto A (declSection d) := by
  cases d with
  | field d => exact pointsInto_variableSection h .field
  | var d => exact pointsInto_variableSection h .var
  | function f =>
      simp only [declSection]
      split
      · exact pointsInto_pure _
      · next body hbody => exact (pointsInto_functionCode h (h.2.2 body hbody)).map

theorem pointsInto_sections {program : List Decl} (h : LiesIn A program) :
    PointsInto A (sections program) := by
  induction program with
  | nil => exact pointsInto_pure _
  | cons d rest ih =>
      obtain ⟨hd, hrest⟩ := liesIn_cons.1 h
      unfold sections
      refine pointsInto_bind (pointsInto_declSection hd) fun first => ?_
      exact (ih hrest).map

/-- The generator reports only at tokens of the program. -/
theorem pointsInto_generate {program : List Decl} (h : LiesIn A program) :
    PointsInto A (generate program) := by
  unfold generate
  exact pointsInto_bind (pointsInto_declareAll h) fun _ => pointsInto_sections h

end Gen

end TickScript
