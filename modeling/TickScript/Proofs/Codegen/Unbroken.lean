import TickScript.Proofs.Reporting
import TickScript.Unit

/-!
# Code generation never breaks down

Three places of the generator trust what others made sure of. Declaring a variable cuts the symbol
table at the mark of the innermost block; an argument is checked against the parameter at its index;
and an expression with the shape of a literal is taken for that literal. The last holds of every
expression (`Expr.literal?_eq`), and the second wherever arguments have been counted
(`keepsScope_arguments`).

For the first, stages are told apart by what they do to the symbol table. Most leave it as it is
(`KeepsScope`). A block does as well: it is entered with a mark at the end of the table, what happens
inside only extends the table (`GrowsScope`), and leaving it cuts off all of that. A loop removes the
variable that it started with before it leaves its block, so this variable has to be the one behind
the mark. A table that was only extended behind its marks is not broken (`SymbolTable.Grows.unbroken`),
and every function starts with an empty one; therefore code generation is faithful
(`faithful_generate`).
-/

namespace TickScript

/-! ## What literals are taken for -/

namespace Expr

/-- What has the shape of a string is one, what has that of a bool is a word, and what has that of a
number is one that may have a sign in front. -/
theorem of_literalType? {e : Expr} {shape : VarType} (h : e.literalType? = some shape) :
    (shape = .string → ∃ opening value, e = .string opening value)
    ∧ (shape = .bool → ∃ token, e = .word token)
    ∧ (shape = .float ∨ shape = .int → e.numberParts? = some e.numberParts) := by
  have hnumber (token : Token) : numberType token ≠ .string ∧ numberType token ≠ .bool := by
    unfold numberType
    split <;> decide
  unfold literalType? at h
  split at h
  · next token =>
      obtain rfl := Option.some.inj h
      exact ⟨fun h => absurd h (hnumber token).1, fun h => absurd h (hnumber token).2, fun _ => rfl⟩
  · next operator token =>
      split at h
      · obtain rfl := Option.some.inj h
        exact ⟨fun h => absurd h (hnumber token).1, fun h => absurd h (hnumber token).2, fun _ => rfl⟩
      · cases h
  · next opening value =>
      obtain rfl := Option.some.inj h
      have hother : VarType.string ≠ .bool ∧ VarType.string ≠ .float ∧ VarType.string ≠ .int := by
        decide
      exact ⟨fun _ => ⟨opening, value, rfl⟩, fun h => absurd h hother.1,
        fun h => (h.elim hother.2.1 hother.2.2).elim⟩
  · next token =>
      have hword : shape = .bool ∨ shape = .object := by
        split at h
        · exact .inl (Option.some.inj h).symm
        · exact .inl (Option.some.inj h).symm
        · exact .inr (Option.some.inj h).symm
        · exact .inr (Option.some.inj h).symm
        · cases h
      refine ⟨fun hstring => ?_, fun _ => ⟨token, rfl⟩, fun hnumber => ?_⟩
      · rcases hword with rfl | rfl <;> cases hstring
      · rcases hword with rfl | rfl <;> rcases hnumber with h | h <;> cases h
  · cases h

/-- Every expression is what its shape says. -/
theorem literal?_eq (e : Expr) (type : VarType) : e.literal? type = some (e.literal type) := by
  unfold literal? literal
  split
  · rfl
  · next hshape =>
      obtain ⟨opening, value, rfl⟩ := (of_literalType? hshape).1 rfl
      split
      · next hne =>
          split
          · exact absurd rfl hne
          · rfl
      · next heq =>
          obtain rfl : type = .string := by simpa using heq
          rfl
  · next hshape =>
      obtain ⟨token, rfl⟩ := (of_literalType? hshape).2.1 rfl
      split
      · next hnever =>
          obtain rfl | rfl : type = .string ∨ type = .object := by simpa using hnever
          · rfl
          · rfl
      · next hother =>
          show some _ = some _
          split
          · exact absurd rfl hother
          · exact absurd rfl hother
          · next hword _ _ =>
              cases hword
              rfl
          · next hword => exact absurd rfl (hword token)
  · next hshape => rw [(of_literalType? hshape).2.2 (.inl rfl), Option.map_some]
  · next hshape => rw [(of_literalType? hshape).2.2 (.inr rfl), Option.map_some]
  · rfl

end Expr

/-! ## What stages do to the symbol table -/

/-- Behind one table there is another: the same marks, and the variables with perhaps some more. -/
def SymbolTable.Grows (t t' : SymbolTable) : Prop :=
  ∃ more, t' = { t with symbols := t.symbols ++ more }

namespace SymbolTable.Grows

variable {t t₁ t₂ : SymbolTable}

theorem refl (t : SymbolTable) : t.Grows t := ⟨[], by rw [List.append_nil]⟩

theorem trans (h₁ : t.Grows t₁) (h₂ : t₁.Grows t₂) : t.Grows t₂ := by
  obtain ⟨first, rfl⟩ := h₁
  obtain ⟨second, rfl⟩ := h₂
  exact ⟨first ++ second, by rw [List.append_assoc]⟩

/-- A mark that does not point past the last variable does not when there are more of them. -/
theorem unbroken (h : t.Grows t₁) (ht : t.isBroken = false) : t₁.isBroken = false := by
  obtain ⟨more, rfl⟩ := h
  have hmark : t.start ≤ t.symbols.length := by simpa [isBroken] using ht
  refine decide_eq_false (Nat.not_lt.mpr ?_)
  exact Nat.le_trans hmark (by simp)

end SymbolTable.Grows

/-- The mark that a block sets lies at the end of the symbols. -/
theorem SymbolTable.unbroken_enter (t : SymbolTable) : t.enter.isBroken = false := by
  simp [isBroken, start, enter]

/-- A block that only gained variables leaves the table that it was entered with. -/
theorem SymbolTable.leave_of_grows {t t' : SymbolTable} (h : t.enter.Grows t') : t'.leave.2 = t := by
  obtain ⟨more, rfl⟩ := h
  simp [leave, enter]

/-- A declaration only adds a symbol, to the block that is innermost. -/
theorem SymbolTable.grows_declare (t : SymbolTable) (name : Text) (type : VarType) :
    t.Grows (t.declare name type).2.2 := by
  unfold declare
  split
  · exact .refl t
  · exact ⟨_, rfl⟩

/-- The first variable of a block is new, and removing it takes it away again. -/
theorem SymbolTable.declare_enter (t : SymbolTable) (name : Text) (type : VarType) :
    ∃ symbol, t.enter.declare name type
        = (symbol, true, { t.enter with symbols := t.enter.symbols ++ [symbol] }) := by
  simp [declare, enter, start]

/-- Removing the symbol that was just declared gives the table from before. -/
theorem SymbolTable.remove_last (t : SymbolTable) (symbol : Symbol) :
    ({ t with symbols := t.symbols ++ [symbol] } : SymbolTable).remove symbol.name = t := by
  simp [remove]

namespace Gen

open Stage

/-- A stage does not break down and leaves the symbol table alone. -/
def KeepsScope {α : Type} (x : Gen α) : Prop :=
  ∀ t, Total (fun s : GenState => s.scope = t) x fun _ s => s.scope = t

/-- From an unbroken symbol table, a stage does not break down and only adds variables to it. -/
def GrowsScope {α : Type} (x : Gen α) : Prop :=
  ∀ t : SymbolTable, t.isBroken = false →
    Total (fun s : GenState => s.scope = t) x fun _ s => t.Grows s.scope

variable {α β : Type} {x : Gen α}

/-- A stage that keeps the scope comes to its end and reports truly, broken scope or not. -/
theorem KeepsScope.faithful (hx : KeepsScope x) : Faithful x := by
  intro s
  obtain ⟨a, s', new, hanswers, -⟩ := hx s.scope s rfl
  exact ⟨(a, s'), new, hanswers⟩

/-- Keeping the scope is a way of growing it. -/
theorem KeepsScope.growsScope (hx : KeepsScope x) : GrowsScope x := fun t _ =>
  (hx t).mono (fun _ h => h) fun _ _ h => h ▸ .refl t

@[grind .] theorem keepsScope_pure (a : α) : KeepsScope (pure a) := fun _ => total_pure fun _ h => h

@[grind .] theorem keepsScope_get : KeepsScope get := fun _ => total_get.mono (fun _ h => h) fun _ _ h => h.1

@[grind .] theorem keepsScope_report (t : Token) (cause : Cause) :
    KeepsScope (liftM (report t cause) : Gen Unit) := fun _ => total_report

/-- Stages that keep the scope keep it one behind the other. -/
@[grind ←] theorem keepsScope_bind {f : α → Gen β} (hx : KeepsScope x) (hf : ∀ a, KeepsScope (f a)) :
    KeepsScope (x >>= f) := fun t => total_bind (hx t) fun a => hf a t

@[grind ←] theorem keepsScope_map (f : α → β) (hx : KeepsScope x) : KeepsScope (f <$> x) := by
  rw [map_eq_pure_bind]
  exact keepsScope_bind hx fun _ => keepsScope_pure _

/-- Scopes that grow one after the other grow together, as long as none of them breaks. -/
@[grind ←] theorem growsScope_bind {f : α → Gen β} (hx : GrowsScope x)
    (hf : ∀ a, GrowsScope (f a)) : GrowsScope (x >>= f) := by
  intro t ht s hs
  obtain ⟨a, s₁, new, hfirst, hgrows₁⟩ := hx t ht s hs
  obtain ⟨b, s₂, more, hsecond, hgrows₂⟩ := hf a s₁.scope (hgrows₁.unbroken ht) s₁ rfl
  exact ⟨b, s₂, more ++ new, hfirst.bind hsecond, hgrows₁.trans hgrows₂⟩

/-! ## Expressions -/

/-- No expression is taken for a literal that it is not. -/
@[simp] theorem literalOf_eq (e : Expr) (type : VarType) :
    literalOf e type = pure (e.literal type) := by
  rw [literalOf, e.literal?_eq]

@[grind .] theorem keepsScope_literalOf (e : Expr) (type : VarType) : KeepsScope (literalOf e type) := by
  rw [literalOf_eq]
  exact keepsScope_pure _

@[grind .] theorem keepsScope_register (t : Token) (id : Id) (name : Text) :
    KeepsScope (register t id name) := by
  unfold register
  refine keepsScope_bind keepsScope_get fun s => ?_
  split
  · grind
  · exact fun _ => total_modify fun _ h => h

@[grind .] theorem keepsScope_resolve (t : Token) : KeepsScope (resolve t) := by
  unfold resolve
  grind

@[grind .] theorem keepsScope_jump (t : Token) (op : Opcode) (distance : Int) :
    KeepsScope (jump t op distance) := by
  unfold jump
  grind

@[grind .] theorem keepsScope_literalValue (e : Expr) : KeepsScope (literalValue e) := by
  unfold literalValue
  grind

@[grind .] theorem keepsScope_wordValue (t : Token) : KeepsScope (wordValue t) := by
  unfold wordValue
  grind

@[grind .] theorem keepsScope_stepCode (operator target : Token) (after : Bool) (want : Want) :
    KeepsScope (stepCode operator target after want) := by
  unfold stepCode
  grind

@[grind .] theorem keepsScope_fits (name : Text) (e : Expr) (type : VarType) :
    KeepsScope (fits name e type) := by
  unfold fits
  grind

/-- The arguments of a known function are counted before any of them is checked. -/
theorem total_calledFunction (callee : Token) (count : Nat) (t : SymbolTable) :
    Total (fun s : GenState => s.scope = t) (calledFunction callee count) fun r s =>
      s.scope = t ∧ ∀ f, r = some (some f) → f.params.length = count := by
  unfold calledFunction
  refine total_bind total_get fun s => ?_
  dsimp only
  split
  · refine total_bind total_report fun _ => total_pure fun _ h => ⟨h.1, fun f hf => ?_⟩
    cases hf
  · split
    · next f _ =>
        split
        · refine total_bind total_report fun _ => total_pure fun _ h => ⟨h.1, fun f hf => ?_⟩
          cases hf
        · next hcount =>
            refine total_pure fun _ h => ⟨h.1, fun g hg => ?_⟩
            obtain rfl := Option.some.inj (Option.some.inj hg)
            simpa using hcount
    · refine total_pure fun _ h => ⟨h.1, fun f hf => ?_⟩
      cases Option.some.inj hf

/-- The argument has a parameter at its index, so the check finds its type. -/
theorem keepsScope_checkArgument (f? : Option FuncDecl) (index : Nat) (e : Expr)
    (h : ∀ f, f? = some f → index < f.params.length) : KeepsScope (checkArgument f? index e) := by
  unfold checkArgument
  split
  · exact keepsScope_pure _
  · next f =>
      have hindex := h f rfl
      split
      · rw [List.getElem?_eq_getElem hindex]
        grind
      · exact keepsScope_pure _

mutual

/-- No expression touches the scope: it only looks names up. -/
theorem keepsScope_expr (want : Want) : (e : Expr) → KeepsScope (expr want e)
  | .ident t => by unfold expr; grind
  | .number t => by unfold expr; grind
  | .string opening value => by unfold expr; grind
  | .word t => by unfold expr; grind
  | .unary operator operand => by
      have ih := keepsScope_expr .value operand
      unfold expr
      grind
  | .step operator target after => by unfold expr; grind
  | .binary operator left right => by
      have hleft (want : Want) := keepsScope_expr want left
      have hright (want : Want) := keepsScope_expr want right
      unfold expr
      grind
  | .assign operator target value => by
      have ih := keepsScope_expr .value value
      unfold expr
      grind
  | .call callee args => by
      unfold expr
      split
      · -- a call of an operation of the machine has no function to check against
        have ih := keepsScope_arguments none 0 args (by simp)
        grind
      · intro t
        refine total_bind (total_calledFunction callee args.length t) fun called => ?_
        split
        · exact total_pure fun _ h => h.1
        · next f? =>
            -- a function of the unit has as many parameters as there are arguments
            intro s hs
            have ih := keepsScope_arguments f? 0 args fun f hf => by
              have hparams := hs.2 f (by rw [hf])
              omega
            have hcode : KeepsScope (do
                let code ← arguments f? 0 args
                let id := Name.id callee.text
                register callee id callee.text
                return fromValue want (code ++ [.withWord .call id])) := by
              grind
            exact hcode t s hs.1
  | .index target subscript => by unfold expr; grind

/-- There are as many parameters as arguments, so every index that is asked for is there. -/
theorem keepsScope_arguments (f? : Option FuncDecl) (index : Nat) : (args : List Expr) →
    (∀ f, f? = some f → index + args.length ≤ f.params.length) →
      KeepsScope (arguments f? index args)
  | [], _ => by unfold arguments; grind
  | e :: rest, h => by
      have hcheck := keepsScope_checkArgument f? index e fun f hf => by
        have := h f hf
        simp only [List.length_cons] at this
        omega
      have hfirst := keepsScope_expr .value e
      have hrest := keepsScope_arguments f? (index + 1) rest fun f hf => by
        have := h f hf
        simp only [List.length_cons] at this
        omega
      unfold arguments
      grind

end

attribute [grind .] keepsScope_expr

/-! ## Statements -/

@[grind .] theorem keepsScope_initialise (symbol : Symbol) (init : Expr) :
    KeepsScope (initialise symbol init) := by
  unfold initialise
  grind

@[grind .] theorem keepsScope_leaveFunction (ctx : FunctionContext) (result : Code) (extra : List Id) :
    KeepsScope (leaveFunction ctx result extra) := by
  unfold leaveFunction
  grind

@[grind .] theorem keepsScope_returnCode (ctx : FunctionContext) (t : Token) (e? : Option Expr) :
    KeepsScope (returnCode ctx t e?) := by
  unfold returnCode
  grind

@[grind .] theorem keepsScope_branchCode (t : Token) (test body tail : Code) :
    KeepsScope (branchCode t test body tail) := by
  unfold branchCode
  grind

@[grind .] theorem keepsScope_layBranches (tail : Code) (branches : List Branch) :
    KeepsScope (layBranches tail branches) := by
  induction branches with
  | nil => exact keepsScope_pure _
  | cons b rest ih =>
      unfold layBranches
      grind

@[grind .] theorem keepsScope_loopTest (t : Token) (condition : Expr) (body : Nat) :
    KeepsScope (loopTest t condition body) := by
  unfold loopTest
  grind

@[grind .] theorem keepsScope_loopCode (t : Token) (kind : LoopKind) (condition : Expr)
    (step? : Option Expr) (inner : Code) : KeepsScope (loopCode t kind condition step? inner) := by
  unfold loopCode
  grind

/-! ### Blocks -/

/-- In a scope that is not broken a declaration comes to its end: the mark of the innermost block lies
within the symbols. -/
theorem total_declareLocal (name : Text) (type : VarType) {t : SymbolTable}
    (ht : t.isBroken = false) : Total (fun s : GenState => s.scope = t) (declareLocal name type)
      fun r s => r.1 = (t.declare name type).1 ∧ s.scope = (t.declare name type).2.2 := by
  unfold declareLocal
  refine total_get_bind fun s hs => ?_
  subst hs
  have hdeclared : s.scope.declare? name type = some (s.scope.declare name type) := by
    rw [SymbolTable.declare?, if_neg (by simp [ht])]
  simp only [hdeclared]
  exact total_bind (Q := fun _ s' => s'.scope = (s.scope.declare name type).2.2) (total_set rfl)
    fun _ => total_pure fun _ h => ⟨rfl, h⟩

/-- A local variable is declared and then started, in the scope that the declaration leaves. -/
theorem total_localVar (d : VarDecl) {t : SymbolTable} (ht : t.isBroken = false) :
    Total (fun s : GenState => s.scope = t) (localVar d) fun r s =>
      r.1 = (t.declare d.name d.type).1 ∧ s.scope = (t.declare d.name d.type).2.2 := by
  unfold localVar
  refine total_get_bind fun s hs => total_reportIf ?_
  refine total_bind ((total_declareLocal d.name d.type ht).mono (fun _ h => h ▸ hs) fun _ _ h => h)
    fun declared => ?_
  refine total_and fun hsymbol => total_reportIf ?_
  -- what follows names the variable and does not touch the table again
  refine total_bind (keepsScope_register _ _ _ _) fun _ => ?_
  dsimp only
  split
  · exact total_pure fun _ h => ⟨hsymbol, h⟩
  · exact total_bind (keepsScope_initialise _ _ _) fun _ => total_pure fun _ h => ⟨hsymbol, h⟩

theorem growsScope_localVar (d : VarDecl) : GrowsScope (localVar d) := fun t ht =>
  (total_localVar d ht).mono (fun _ h => h) fun _ _ h => h.2 ▸ t.grows_declare d.name d.type

/-- Behind the start of a loop its block has the variable that will be removed, or nothing. -/
theorem total_startCode (start : LoopStart) (t : SymbolTable) :
    Total (fun s : GenState => s.scope = t.enter) (startCode start) fun r s =>
      s.scope = { t.enter with symbols := t.enter.symbols ++ r.1.toList } := by
  have hnone : t.enter = { t.enter with symbols := t.enter.symbols ++ [] } := by
    rw [List.append_nil]
  unfold startCode
  split
  · exact total_pure fun s hs => hs.trans hnone
  · next d =>
      obtain ⟨symbol, hdeclared⟩ := t.declare_enter d.name d.type
      refine total_bind (total_localVar d t.unbroken_enter) fun r => total_pure fun s hs => ?_
      rw [hdeclared] at hs
      rw [hs.1, hs.2]
      rfl
  · next e =>
      exact total_bind (keepsScope_expr .effect e t.enter) fun _ => total_pure fun s hs => hs.trans hnone

/-- Whatever a block declares, the table behind it is the one in front of it. -/
theorem keepsScope_inBlock (body : List Stmt) {code : Gen Code} (h : GrowsScope code) :
    KeepsScope (inBlock body code) := by
  intro t
  unfold inBlock enter leave
  refine total_bind (Q := fun _ s => s.scope = t.enter) (total_modify fun s hs => hs ▸ rfl) fun _ => ?_
  refine total_bind (h t.enter t.unbroken_enter) fun code => ?_
  refine total_bind (Q := fun _ s => s.scope = t) ?_ fun dropped => ?_
  · refine total_get_bind fun s hs => ?_
    exact total_bind (Q := fun _ s => s.scope = t) (total_set (SymbolTable.leave_of_grows hs))
      fun _ => total_pure fun _ h => h
  · split
    · exact total_pure fun _ h => h
    · exact total_pure fun _ h => h

/-- A loop removes its variable from its own block, which it then leaves. -/
theorem keepsScope_loop (ctx : FunctionContext) (name : Text) (t : Token) (kind : LoopKind)
    (condition? step? : Option Expr) (start : LoopStart) (body : List Stmt)
    (h : GrowsScope (stmts ctx body)) :
    KeepsScope (stmt ctx (.loop name t kind condition? step? start body)) := by
  intro table
  unfold stmt enter leave
  refine total_bind (Q := fun _ s => s.scope = table.enter) (total_modify fun s hs => hs ▸ rfl)
    fun _ => ?_
  refine total_bind (total_startCode start table) fun started => ?_
  dsimp only
  refine total_bind (keepsScope_inBlock body h _) fun inner => ?_
  refine total_bind (keepsScope_loopCode _ _ _ _ _ _) fun code => ?_
  refine total_bind (Q := fun _ s => s.scope = table.enter) ?_ fun release => ?_
  · unfold releaseCode
    split
    · next hnone => exact total_pure fun s hs => by rw [hs, hnone, Option.toList, List.append_nil]
    · next symbol hsome =>
        refine total_bind (Q := fun _ s => s.scope = table.enter) (total_modify fun s hs => ?_)
          fun _ => total_pure fun _ h => h
        rw [hs, hsome]
        exact table.enter.remove_last symbol
  · refine total_bind (Q := fun _ s => s.scope = table) ?_ fun _ => total_pure fun _ h => h
    refine total_get_bind fun s hs => ?_
    refine total_bind (Q := fun _ s => s.scope = table) (total_set ?_) fun _ => total_pure fun _ h => h
    exact SymbolTable.leave_of_grows (hs ▸ .refl _)

mutual

/-- A statement adds to the innermost block or restores what it added, and never breaks the scope. -/
theorem growsScope_stmt (ctx : FunctionContext) : (s : Stmt) → GrowsScope (stmt ctx s)
  | .declare d => by
      unfold stmt
      exact growsScope_bind (growsScope_localVar d) fun _ => (keepsScope_pure _).growsScope
  | .expr name t kind value? => by
      refine KeepsScope.growsScope ?_
      unfold stmt
      grind
  | .ifElse name t condition body rest => by
      have hbody := keepsScope_inBlock body (growsScope_stmts ctx body)
      have helse := keepsScope_elseCode ctx rest
      have hbranches := keepsScope_branches ctx rest
      refine KeepsScope.growsScope ?_
      unfold stmt
      grind
  | .loop name t kind condition? step? start body =>
      (keepsScope_loop ctx name t kind condition? step? start body (growsScope_stmts ctx body)).growsScope

theorem growsScope_stmts (ctx : FunctionContext) : (body : List Stmt) → GrowsScope (stmts ctx body)
  | [] => by
      unfold stmts
      exact (keepsScope_pure _).growsScope
  | s :: rest => by
      unfold stmts
      refine growsScope_bind (growsScope_stmt ctx s) fun first => ?_
      exact growsScope_bind (growsScope_stmts ctx rest) fun _ => (keepsScope_pure _).growsScope

/-- Branches are blocks, so they restore the scope. -/
theorem keepsScope_elseCode (ctx : FunctionContext) :
    (rest : Alternatives) → KeepsScope (elseCode ctx rest)
  | .none => by
      unfold elseCode
      exact keepsScope_pure _
  | .otherwise name t body => by
      unfold elseCode
      exact keepsScope_inBlock body (growsScope_stmts ctx body)
  | .elseIf name t condition body rest => by
      unfold elseCode
      exact keepsScope_elseCode ctx rest

theorem keepsScope_branches (ctx : FunctionContext) :
    (rest : Alternatives) → KeepsScope (branches ctx rest)
  | .none => by
      unfold branches
      exact keepsScope_pure _
  | .otherwise name t body => by
      unfold branches
      exact keepsScope_pure _
  | .elseIf name t condition body rest => by
      unfold branches
      refine keepsScope_bind (keepsScope_inBlock body (growsScope_stmts ctx body)) fun code => ?_
      exact keepsScope_bind (keepsScope_branches ctx rest) fun _ => keepsScope_pure _

end

/-! ## Units -/

theorem faithful_declareFunction (f : FuncDecl) : Faithful (declareFunction f) := by
  have hregister := (keepsScope_register f.token f.id f.name).faithful
  unfold declareFunction
  grind

theorem faithful_declareVariable (d : VarDecl) : Faithful (declareVariable d) := by
  have hregister := (keepsScope_register d.token d.id d.name).faithful
  unfold declareVariable
  grind

theorem faithful_declareAll (program : List Decl) : Faithful (declareAll program) := by
  have hfunction := faithful_declareFunction
  have hvariable := faithful_declareVariable
  induction program with
  | nil => exact faithful_pure _
  | cons d rest ih =>
      unfold declareAll
      grind

/-- The sections of variables have no scope of their own. -/
theorem keepsScope_variableSection (kind : SectionKind) (d : VarDecl) :
    KeepsScope (variableSection kind d) := by
  unfold variableSection
  grind

/-- Parameters are declared one after the other in the scope of the function. -/
theorem growsScope_declareParams (params : List Param) : GrowsScope (declareParams params) := by
  induction params with
  | nil => exact (keepsScope_pure _).growsScope
  | cons p rest ih =>
      intro t ht
      unfold declareParams
      refine total_bind (total_declareLocal p.name p.type ht) fun declared => ?_
      refine total_and fun _ => total_reportIf ?_
      refine total_bind (keepsScope_register _ _ _ _) fun _ => ?_
      have hgrows := t.grows_declare p.name p.type
      refine total_bind (ih _ (hgrows.unbroken ht)) fun more => total_pure fun _ h => ?_
      exact hgrows.trans h

/-- Every function starts with an empty table, whatever the one before left. -/
theorem faithful_functionCode (f : FuncDecl) (body : List Stmt) :
    Faithful (functionCode f body) := by
  refine Total.faithful (Q := fun _ _ => True) ?_
  unfold functionCode
  refine total_bind (Q := fun _ s => s.scope = ⟨f.name, [], []⟩) (total_modify fun _ _ => rfl)
    fun _ => ?_
  have hrest : GrowsScope (do
      let params ← declareParams f.params
      let code ← stmts ⟨f.name, f.returnType⟩ body
      let exit ← if endsWithReturn body then pure []
        else returnCode ⟨f.name, f.returnType⟩ f.token none
      return prologue params ++ code ++ exit) := by
    refine growsScope_bind (growsScope_declareParams f.params) fun params => ?_
    refine growsScope_bind (growsScope_stmts _ body) fun code => KeepsScope.growsScope ?_
    grind
  exact (hrest ⟨f.name, [], []⟩ rfl).mono (fun _ h => h) fun _ _ _ => trivial

/-- Each section begins with a scope of its own, so none inherits a broken one. -/
theorem faithful_declSection (d : Decl) : Faithful (declSection d) := by
  unfold declSection
  split
  · exact (keepsScope_variableSection _ _).faithful
  · exact (keepsScope_variableSection _ _).faithful
  · next f =>
      have hcode := faithful_functionCode f
      grind

/-- All sections of a unit come through. -/
theorem faithful_sections (program : List Decl) : Faithful (sections program) := by
  have hsection := faithful_declSection
  induction program with
  | nil => exact faithful_pure _
  | cons d rest ih =>
      unfold sections
      grind

/-- Whatever a unit declares, its code is generated without breaking down. -/
theorem faithful_generate (program : List Decl) : Faithful (generate program) :=
  faithful_bind (faithful_declareAll program) fun _ => faithful_sections program

end Gen

end TickScript
