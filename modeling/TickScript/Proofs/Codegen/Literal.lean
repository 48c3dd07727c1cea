import TickScript.Proofs.Codegen.Stmt
import TickScript.Proofs.Literal
import TickScript.Proofs.Machine.Straight

/-!
# Starting with a literal or having it assigned

A variable can be declared with a literal, or be declared first and have the literal assigned. The
declaration writes bytes that the compiler made for the type of the variable; the assignment checks
the literal against that type too, but then pushes the value that the literal has by its own shape
and leaves the conversion to the machine.

`Gen.literal_initialised_or_assigned` compares the two. What each of them compiles to is an
equivalence (`initialised_clean_iff`, `assigned_clean_iff`), so both directions are there: which
literals are accepted, and which code an accepted one has. What the variable holds behind that code
is a run of `Proofs.Machine.Straight`, and that the run of the assignment ends in the value of the
declaration is `Expr.settles_literal`.

The two ways differ at three points, and the comparison names all of them: a number that the type
can hold may lie outside the range of its own shape, an object can only start a variable that is an
object itself, and a string may be too long for the stack. Where both ways are accepted they leave
the same value in the variable.

The example at the end is the first of these differences: the variable is an unsigned one and its
number too large for a signed literal.
-/

namespace TickScript

/-- The value of a variable that starts with a literal. What the two objects are is known only where
the program runs. -/
def Expr.valueAs (e : Expr) (t : VarType) (attached : Handle) : Value :=
  match e.literal t with
  | .ok v => v
  | .error _ => (Value.ofHandle (if e.isNull then Name.nullObject else attached).toInt).convert t

/-- A type takes a literal: if it is a constant, the type has a value for it. -/
def Expr.TakenBy (e : Expr) (t : VarType) : Prop := e.isConstant = true → ∃ v, e.literal t = .ok v

/-- Whether a string is too long to come back from the operand stack. -/
def Expr.isLong : Expr → Bool
  | .string _ value => OperandStack.maxValueSize ≤ value.length
  | _ => false

namespace Gen

open Stage

variable {ctx : FunctionContext} {d : VarDecl} {e : Expr} {s s' : GenState} {code : Code}

/-- A stage comes through without a report. -/
def Accepts {α : Type} (x : Gen α) (s : GenState) : Prop := ∃ a s', Clean x s a s'

/-! ## The new variable -/

/-- A declaration makes a new variable, whatever it starts with. -/
def Introduces (d : VarDecl) (s : GenState) (symbol : Symbol) (s' : GenState) : Prop :=
  s.functions.has d.name = false ∧ ∃ s₁, Clean (declareLocal d.name d.type) s (symbol, true) s₁
    ∧ Clean (register d.token symbol.id symbol.qualified) s₁ () s'

theorem Introduces.unique {symbol symbol' : Symbol} {s₁ s₂ : GenState}
    (h : Introduces d s symbol s₁) (h' : Introduces d s symbol' s₂) : symbol' = symbol ∧ s₂ = s₁ := by
  obtain ⟨-, t, hdeclared, hregistered⟩ := h
  obtain ⟨-, t', hdeclared', hregistered'⟩ := h'
  have hsame := hdeclared.symm.trans hdeclared'
  simp only [EStateM.Result.ok.injEq, Prod.mk.injEq, and_true] at hsame
  obtain ⟨rfl, rfl⟩ := hsame
  have hsame := hregistered.symm.trans hregistered'
  simp only [EStateM.Result.ok.injEq, Prod.mk.injEq, and_true, true_and] at hsame
  exact ⟨rfl, hsame.symm⟩

/-- The new variable is the one that its name stands for from there on. -/
theorem Introduces.find? {symbol : Symbol} (h : Introduces d s symbol s') :
    s'.scope.find? d.name = some symbol ∧ symbol.type = d.type := by
  obtain ⟨-, t, hdeclared, hregistered⟩ := h
  rw [(register_clean hregistered).1.scope]
  obtain ⟨-, hresult, rfl⟩ := clean_declareLocal.mp hdeclared
  simp only [SymbolTable.declare] at hresult ⊢
  split at hresult
  · simp at hresult
  · obtain rfl := (Prod.mk.inj hresult).1
    simp_all [SymbolTable.find?]

theorem localVar_clean_iff {symbol : Symbol} : Clean (localVar d) s (symbol, code) s' ↔
    ∃ s₁ rest, Introduces d s symbol s₁
      ∧ code = .allocate (storageSize d.type d.initial?) d.type symbol.id :: rest
      ∧ match d.initial? with
        | none => rest = [] ∧ s₁ = s'
        | some init => Clean (initialise symbol init) s₁ rest s' := by
  constructor
  · intro h
    unfold localVar at h
    simp only [clean_get_bind] at h
    split at h
    · exact absurd h not_clean_report_bind
    -- the name is none of a function, and new in its block
    next hfunction =>
    obtain ⟨⟨declared, fresh⟩, s₁, hdeclared, h⟩ := h.bind_inv (attentive_declareLocal _ _)
    simp only at h
    split at h
    · exact absurd h not_clean_report_bind
    next hfresh =>
    obtain rfl : fresh = true := by simpa using hfresh
    obtain ⟨_, s₂, hregister, h⟩ := h.bind_inv (attentive_register _ _ _)
    have hnew : Introduces d s declared s₂ := ⟨by simpa using hfunction, s₁, hdeclared, hregister⟩
    cases hinit : d.initial? with
    | none =>
        simp only [hinit] at h
        obtain ⟨heq, rfl⟩ := clean_pure.mp h
        obtain ⟨rfl, rfl⟩ := Prod.mk.inj heq
        exact ⟨s₂, [], hnew, rfl, rfl, rfl⟩
    | some init =>
        simp only [hinit] at h
        obtain ⟨rest, s₃, hrest, h⟩ := h.bind_inv (attentive_initialise _ _)
        obtain ⟨heq, rfl⟩ := clean_pure.mp h
        obtain ⟨rfl, rfl⟩ := Prod.mk.inj heq
        exact ⟨s₂, rest, hnew, rfl, hrest⟩
  · -- in the other direction the same stages are run with what is known of them
    rintro ⟨s₂, rest, ⟨hfunction, s₁, hdeclared, hregister⟩, rfl, hinit⟩
    unfold localVar
    simp only [clean_get_bind, hfunction, Bool.false_eq_true, if_false]
    refine hdeclared.bind ?_
    simp only [Bool.not_true, Bool.false_eq_true, if_false]
    refine hregister.bind ?_
    cases h : d.initial? with
    | none =>
        simp only [h] at hinit ⊢
        obtain ⟨rfl, rfl⟩ := hinit
        exact clean_pure.mpr ⟨rfl, rfl⟩
    | some init =>
        simp only [h] at hinit ⊢
        exact hinit.bind (clean_pure.mpr ⟨rfl, rfl⟩)

/-! ## Literals as code -/

/-- The code that pushes a literal: a constant in its own shape, an object as a variable. -/
def LiteralCode (e : Expr) (shape : VarType) (code : Code) : Prop :=
  if e.isConstant then ∃ own, e.literal shape = .ok own ∧ code = literalCode own
  else code = [.withWord .pushVar (if e.isNull then Name.nullObject else Name.attachedObject)]

theorem literalValue_clean_iff {shape : VarType} (hshape : e.literalType? = some shape) :
    Clean (literalValue e) s code s' ↔
      s' = s ∧ ∃ own, e.literal shape = .ok own ∧ code = literalCode own := by
  constructor
  · intro h
    simpa [hshape] using literalValue_clean h
  · rintro ⟨rfl, own, hown, rfl⟩
    unfold literalValue
    simp only [literalOf_eq, pure_bind, hshape, Option.getD_some, hown]
    exact clean_pure.mpr ⟨rfl, rfl⟩

/-- What stands for a constant, without further ado, is its code. -/
theorem clean_pure_literalCode_iff {own : Value} (hown : e.literal shape = .ok own) :
    Clean (pure (literalCode own)) s code s'
      ↔ s' = s ∧ ∃ own, e.literal shape = .ok own ∧ code = literalCode own := by
  rw [clean_pure]
  constructor
  · rintro ⟨rfl, rfl⟩
    exact ⟨rfl, own, hown, rfl⟩
  · rintro ⟨rfl, own', hown', rfl⟩
    obtain rfl := Except.ok.inj (hown.symm.trans hown')
    exact ⟨rfl, rfl⟩

theorem expr_literal_clean_iff {shape : VarType} (hshape : e.literalType? = some shape) :
    Clean (expr .value e) s code s' ↔ s' = s ∧ LiteralCode e shape code := by
  have hconstant (h : e.isConstant = true) :
      LiteralCode e shape code ↔ ∃ own, e.literal shape = .ok own ∧ code = literalCode own := by
    rw [LiteralCode, if_pos h]
  -- the literals, by what they are written with; for each, what the generator emits
  cases Expr.isLiteral_of_literalType? hshape with
  | number t =>
      have hexpr : expr .value (.number t) = literalValue (.number t) := by
        unfold expr
        exact bind_pure _
      rw [hexpr, hconstant (by simp [Expr.isConstant, Expr.literalType?])]
      exact literalValue_clean_iff hshape
  | @signed operator t h =>
      rw [hconstant (by simp [Expr.isConstant, hshape])]
      rcases h with h | h
      · -- a minus sign is read together with the number
        have hexpr : expr .value (.unary operator (.number t))
            = literalValue (.unary operator (.number t)) := by
          unfold expr
          simp only [h]
          exact bind_pure _
        rw [hexpr]
        exact literalValue_clean_iff hshape
      · -- a plus sign leaves no trace in the code
        have hexpr : expr .value (.unary operator (.number t)) = literalValue (.number t) := by
          unfold expr
          simp only [h]
          unfold expr
          exact (bind_pure _).trans (bind_pure _)
        have hsame : (Expr.unary operator (.number t)).literal (Expr.numberType t)
            = (Expr.number t).literal (Expr.numberType t) := by
          have hplain : (Expr.number t).literalType? = some (Expr.numberType t) := rfl
          rcases Expr.numberType_cases t with htype | htype
          · rw [htype] at hshape hplain ⊢
            rw [Expr.literal_of_int hshape, Expr.literal_of_int hplain]
            simp [Expr.integerValue, Expr.numberParts, h]
          · rw [htype] at hshape hplain ⊢
            rw [Expr.literal_of_float hshape, Expr.literal_of_float hplain]
            simp [Expr.realValue, Expr.numberParts, h]
        rw [hexpr, hsame]
        exact literalValue_clean_iff rfl
  | string opening value =>
      rw [hconstant rfl]
      unfold expr
      exact clean_pure_literalCode_iff rfl
  | @truth t h =>
      have hexpr : expr .value (.word t) = pure (literalCode (.ofBool (t.kind = .true))) := by
        unfold expr
        rcases h with h | h <;> simp [wordValue, h, fromValue]
      -- a truth value converted to its own type is itself
      have hself : (Value.ofBool (t.kind = .true)).convert .bool = .ofBool (t.kind = .true) :=
        Value.convert_of_type rfl
      rw [hexpr, hconstant (by rcases h with h | h <;> simp [Expr.isConstant, h])]
      exact clean_pure_literalCode_iff (by rw [Expr.literal_truth h, if_neg (by decide), hself])
  | @object t h =>
      have hexpr : expr .value (.word t) = pure [.withWord .pushVar
          (if Expr.isNull (.word t) then Name.nullObject else Name.attachedObject)] := by
        unfold expr
        rcases h with h | h <;> simp [wordValue, h, fromValue, Expr.isNull]
      -- the two objects are variables of the machine, not constants
      have hvariable : Expr.isConstant (.word t) = false := by
        rcases h with h | h <;> simp [Expr.isConstant, h]
      rw [hexpr, LiteralCode, hvariable, clean_pure]
      simp only [Bool.false_eq_true, if_false]
      constructor
      · rintro ⟨rfl, rfl⟩
        exact ⟨rfl, rfl⟩
      · rintro ⟨rfl, rfl⟩
        exact ⟨rfl, rfl⟩

/-! ## The two ways into a variable -/

/-- The code that pushes a literal and stores it. -/
def StoredCode (e : Expr) (shape : VarType) (id : Id) (code : Code) : Prop :=
  ∃ value, LiteralCode e shape value ∧ code = value ++ [.withWord .popVar id]

/-- The code that writes the bytes of a literal, as a value of a type. -/
def WrittenCode (e : Expr) (t : VarType) (id : Id) (code : Code) : Prop :=
  ∃ v, e.literal t = .ok v ∧ code = [.set id v.data]

theorem isConstant_eq_false_iff {shape : VarType} (hshape : e.literalType? = some shape) :
    e.isConstant = false ↔ shape = .object := by
  have hnumber (t : Token) : Expr.numberType t ≠ .object := by
    rcases Expr.numberType_cases t with h | h <;> rw [h] <;> decide
  cases Expr.isLiteral_of_literalType? hshape with
  | number t => exact iff_of_false (by simp [Expr.isConstant, hshape]) (hnumber t)
  | signed t h => exact iff_of_false (by simp [Expr.isConstant, hshape]) (hnumber t)
  | string opening value => exact iff_of_false (by simp [Expr.isConstant, hshape]) (by decide)
  | truth h =>
      refine iff_of_false ?_ (by decide)
      rcases h with h | h <;> simp [Expr.isConstant, h]
  | object h =>
      refine iff_of_true ?_ rfl
      rcases h with h | h <;> simp [Expr.isConstant, h]

theorem initialise_literal_clean_iff {shape : VarType} (hshape : e.literalType? = some shape)
    {symbol : Symbol} : Clean (initialise symbol e) s code s' ↔ s' = s
      ∧ (shape = .object → symbol.type = .object)
      ∧ if e.isConstant then WrittenCode e symbol.type symbol.id code
        else StoredCode e shape symbol.id code := by
  unfold initialise
  simp only [hshape, literalOf_eq, pure_bind]
  cases hconstant : e.isConstant with
  -- a constant is written as bytes of the type, if the type takes it
  | true =>
      have hne : shape ≠ .object := by
        intro h
        simp [(isConstant_eq_false_iff hshape).mpr h] at hconstant
      have hsound : (decide (some shape = some VarType.object) && decide (symbol.type ≠ .object))
          = false := by simp [hne]
      simp only [hsound, Bool.false_eq_true, if_false, if_true, WrittenCode]
      cases hv : e.literal symbol.type with
      | error error => exact iff_of_false not_clean_report_bind (by simp)
      | ok v =>
          rw [clean_pure]
          constructor
          · rintro ⟨rfl, rfl⟩
            exact ⟨rfl, fun h => absurd h hne, v, rfl, rfl⟩
          · rintro ⟨rfl, -, v', hv', rfl⟩
            obtain rfl := Except.ok.inj hv'
            exact ⟨rfl, rfl⟩
  -- an object is evaluated and stored, and only an object variable takes it
  | false =>
      have hobject := (isConstant_eq_false_iff hshape).mp hconstant
      by_cases htype : symbol.type = .object
      · have hsound : (decide (some shape = some VarType.object) && decide (symbol.type ≠ .object))
            = false := by simp [htype]
        simp only [hsound, Bool.false_eq_true, if_false]
        rw [clean_bind (attentive_expr .value e)]
        constructor
        · rintro ⟨value, s₁, hrun, hend⟩
          obtain ⟨rfl, hvalue⟩ := (expr_literal_clean_iff hshape).mp hrun
          obtain ⟨rfl, rfl⟩ := clean_pure.mp hend
          exact ⟨rfl, fun _ => htype, value, hvalue, rfl⟩
        · rintro ⟨rfl, -, value, hvalue, rfl⟩
          exact ⟨value, s', (expr_literal_clean_iff hshape).mpr ⟨rfl, hvalue⟩,
            clean_pure.mpr ⟨rfl, rfl⟩⟩
      · -- a variable of another type is refused before any code is made
        have hrefused : (decide (some shape = some VarType.object) && decide (symbol.type ≠ .object))
            = true := by simp [hobject, htype]
        simp only [hrefused, if_true]
        exact iff_of_false not_clean_report_bind fun h => htype (h.2.1 hobject)

/-- A literal is accepted for a type exactly if it can be read as a value of the type. -/
theorem fits_clean_iff {name : Text} {t : VarType} {fitting : Bool} :
    Clean (fits name e t) s fitting s' ↔ s' = s ∧ fitting = true ∧ e.TakenBy t := by
  have hyes : Clean (pure true : Gen Bool) s fitting s' ↔ s' = s ∧ fitting = true :=
    clean_pure.trans ⟨fun ⟨h, h'⟩ => ⟨h'.symm, h.symm⟩, fun ⟨h, h'⟩ => ⟨h'.symm, h.symm⟩⟩
  unfold fits Expr.TakenBy
  rw [literalOf_eq, pure_bind]
  cases hconstant : e.isConstant with
  | false =>
      simp only [Bool.false_eq_true, if_false, false_implies, and_true]
      exact hyes
  | true =>
      cases hv : e.literal t with
      | error error => exact iff_of_false not_clean_report_bind (by simp)
      | ok v =>
          simp only [if_true, Except.ok.injEq, exists_eq', implies_true, and_true]
          exact hyes

/-- An assignment of a literal is checked against the type of the variable and pushes the value of the
literal's own shape. -/
theorem assign_literal_clean_iff {shape : VarType} (hshape : e.literalType? = some shape)
    {operator target : Token} {symbol : Symbol} (hop : operator.kind = .assign)
    (hfind : s.scope.find? target.text = some symbol) :
    Clean (expr .effect (.assign operator target e)) s code s' ↔
      s' = s ∧ e.TakenBy symbol.type ∧ StoredCode e shape symbol.id code := by
  have hplain : operator.kind.compound? = none := by rw [hop]; rfl
  -- the name resolves without a report, since the variable was just introduced
  have hresolve : Clean (resolve target) s (some symbol) s := by
    unfold resolve
    simp only [clean_get_bind, hfind]
    exact clean_pure.mpr ⟨rfl, rfl⟩
  constructor
  · intro h
    unfold expr at h
    rw [Clean, run_bind, show resolve target s ⟨true, []⟩ = _ from hresolve] at h
    replace h : Clean _ s code s' := h
    simp only [hplain, if_true] at h
    obtain ⟨fitting, s₂, hfits, h⟩ := h.bind_inv (attentive_fits _ _ _)
    obtain ⟨rfl, rfl, htaken⟩ := fits_clean_iff.mp hfits
    simp only [if_true] at h
    obtain ⟨value, s₃, hrun, hend⟩ := h.bind_inv (attentive_expr .value e)
    obtain ⟨rfl, hvalue⟩ := (expr_literal_clean_iff hshape).mp hrun
    obtain ⟨rfl, rfl⟩ := clean_pure.mp hend
    exact ⟨rfl, htaken, value, hvalue, rfl⟩
  · rintro ⟨rfl, htaken, value, hvalue, rfl⟩
    unfold expr
    refine hresolve.bind ?_
    simp only [hplain, if_true]
    refine (fits_clean_iff.mpr ⟨rfl, rfl, htaken⟩).bind ?_
    simp only [if_true]
    exact ((expr_literal_clean_iff hshape).mpr ⟨rfl, hvalue⟩).bind (clean_pure.mpr ⟨rfl, rfl⟩)

/-! ## Statements -/

/-- No statements emit nothing. -/
theorem stmts_nil_clean_iff : Clean (stmts ctx []) s code s' ↔ s' = s ∧ code = [] := by
  unfold stmts
  exact clean_pure.trans ⟨fun h => ⟨h.2.symm, h.1.symm⟩, fun h => ⟨h.2.symm, h.1.symm⟩⟩

/-- Statements are emitted one after the other. -/
theorem stmts_cons_clean_iff {first : Stmt} {rest : List Stmt} :
    Clean (stmts ctx (first :: rest)) s code s' ↔ ∃ before s₁ more, Clean (stmt ctx first) s before s₁
      ∧ Clean (stmts ctx rest) s₁ more s' ∧ code = before ++ more := by
  constructor
  · intro h
    unfold stmts at h
    obtain ⟨before, s₁, hfirst, h⟩ := h.bind_inv (attentive_stmt ctx first)
    obtain ⟨more, s₂, hrest, hend⟩ := h.bind_inv (attentive_stmts ctx rest)
    obtain ⟨rfl, rfl⟩ := clean_pure.mp hend
    exact ⟨before, s₁, more, hfirst, hrest, rfl⟩
  · rintro ⟨before, s₁, more, hfirst, hrest, rfl⟩
    unfold stmts
    exact hfirst.bind (hrest.bind (clean_pure.mpr ⟨rfl, rfl⟩))

/-- A declaration statement is the introduction of its local variable. -/
theorem declare_clean_iff : Clean (stmt ctx (.declare d)) s code s' ↔
    ∃ symbol, Clean (localVar d) s (symbol, code) s' := by
  unfold stmt
  rw [clean_bind (attentive_localVar d)]
  constructor
  · rintro ⟨⟨symbol, declared⟩, s₁, hlocal, hend⟩
    obtain ⟨rfl, rfl⟩ := clean_pure.mp hend
    exact ⟨symbol, hlocal⟩
  · rintro ⟨symbol, hlocal⟩
    exact ⟨(symbol, code), s', hlocal, clean_pure.mpr ⟨rfl, rfl⟩⟩

/-- The statement that declares a variable, with or without a value. -/
def declaration (d : VarDecl) (initial? : Option Expr) : List Stmt :=
  [.declare { d with initial? }]

/-- A declaration without a value and the assignment of one. -/
def declareThenAssign (d : VarDecl) (name : Text) (t operator target : Token) (e : Expr) : List Stmt :=
  [.declare { d with initial? := none },
    .expr name t .assignment (some (.assign operator target e))]

/-- A declaration without a value is the allocation of the variable. -/
theorem bare_clean_iff : Clean (stmts ctx (declaration d none)) s code s' ↔
    ∃ symbol, Introduces d s symbol s'
      ∧ code = [.allocate (storageSize d.type none) d.type symbol.id] := by
  rw [declaration, stmts_cons_clean_iff]
  constructor
  · rintro ⟨before, s₁, more, hdeclare, hrest, rfl⟩
    obtain ⟨rfl, rfl⟩ := stmts_nil_clean_iff.mp hrest
    obtain ⟨symbol, hlocal⟩ := declare_clean_iff.mp hdeclare
    obtain ⟨s₂, rest, hnew, rfl, rfl, rfl⟩ := localVar_clean_iff.mp hlocal
    exact ⟨symbol, hnew, rfl⟩
  · rintro ⟨symbol, hnew, rfl⟩
    have hlocal := (localVar_clean_iff (d := { d with initial? := none })).mpr
      ⟨s', [], hnew, rfl, rfl, rfl⟩
    exact ⟨_, s', [], declare_clean_iff.mpr ⟨symbol, hlocal⟩, stmts_nil_clean_iff.mpr ⟨rfl, rfl⟩,
      rfl⟩

/-- A literal that a declaration starts with: its bytes are written, or the object is stored. -/
def StartCode (e : Expr) (shape t : VarType) (id : Id) (code : Code) : Prop :=
  (shape = .object → t = .object)
    ∧ if e.isConstant then WrittenCode e t id code else StoredCode e shape id code

/-- A declaration with a literal is the allocation and the code that starts the variable with it. -/
theorem initialised_clean_iff {shape : VarType} (hshape : e.literalType? = some shape) :
    Clean (stmts ctx (declaration d (some e))) s code s' ↔ ∃ symbol rest, Introduces d s symbol s'
      ∧ StartCode e shape d.type symbol.id rest
      ∧ code = .allocate (storageSize d.type (some e)) d.type symbol.id :: rest := by
  rw [declaration, stmts_cons_clean_iff]
  constructor
  · rintro ⟨before, s₁, more, hdeclare, hrest, rfl⟩
    obtain ⟨rfl, rfl⟩ := stmts_nil_clean_iff.mp hrest
    obtain ⟨symbol, hlocal⟩ := declare_clean_iff.mp hdeclare
    obtain ⟨s₂, rest, hnew, rfl, hinit⟩ := localVar_clean_iff.mp hlocal
    obtain ⟨rfl, hstart⟩ := (initialise_literal_clean_iff hshape).mp hinit
    rw [hnew.find?.2] at hstart
    exact ⟨symbol, rest, hnew, hstart, List.append_nil _⟩
  · rintro ⟨symbol, rest, hnew, hstart, rfl⟩
    rw [StartCode, ← hnew.find?.2] at hstart
    have hinit := (initialise_literal_clean_iff (s := s') hshape).mpr ⟨rfl, hstart⟩
    have hlocal := (localVar_clean_iff (d := { d with initial? := some e })).mpr
      ⟨s', rest, hnew, rfl, hinit⟩
    exact ⟨_, s', [], declare_clean_iff.mpr ⟨symbol, hlocal⟩, stmts_nil_clean_iff.mpr ⟨rfl, rfl⟩,
      (List.append_nil _).symm⟩

/-- A declaration followed by an assignment is the bare allocation and the code that stores the
literal. -/
theorem assigned_clean_iff {shape : VarType} (hshape : e.literalType? = some shape) {name : Text}
    {t operator target : Token} (hop : operator.kind = .assign) (htarget : target.text = d.name) :
    Clean (stmts ctx (declareThenAssign d name t operator target e)) s code s' ↔
      ∃ symbol rest, Introduces d s symbol s' ∧ e.TakenBy d.type
        ∧ StoredCode e shape symbol.id rest
        ∧ code = .allocate (storageSize d.type none) d.type symbol.id :: rest := by
  -- an expression statement emits just its expression
  have hassign (s₁ : GenState) (more : Code) :
      Clean (stmt ctx (.expr name t .assignment (some (.assign operator target e)))) s₁ more s'
        ↔ Clean (expr .effect (.assign operator target e)) s₁ more s' := by
    unfold stmt
    exact Iff.rfl
  rw [declareThenAssign, stmts_cons_clean_iff]
  constructor
  · rintro ⟨before, s₁, more, hdeclare, hrest, rfl⟩
    obtain ⟨assigned, s₂, ended, hassigned, hend, rfl⟩ := stmts_cons_clean_iff.mp hrest
    obtain ⟨rfl, rfl⟩ := stmts_nil_clean_iff.mp hend
    obtain ⟨symbol, hnew, rfl⟩ := bare_clean_iff.mp (stmts_cons_clean_iff.mpr
      ⟨before, s₁, [], hdeclare, stmts_nil_clean_iff.mpr ⟨rfl, rfl⟩, (List.append_nil _).symm⟩)
    obtain ⟨hfind, htype⟩ := hnew.find?
    -- the assignment finds the variable that the declaration has introduced
    rw [← htarget] at hfind
    obtain ⟨rfl, htaken, hstored⟩ :=
      (assign_literal_clean_iff hshape hop hfind).mp ((hassign _ _).mp hassigned)
    exact ⟨symbol, assigned, hnew, htype ▸ htaken, hstored, by simp⟩
  · rintro ⟨symbol, rest, hnew, htaken, hstored, rfl⟩
    obtain ⟨hfind, htype⟩ := hnew.find?
    rw [← htarget] at hfind
    rw [← htype] at htaken
    have hassigned := (hassign _ _).mpr
      ((assign_literal_clean_iff hshape hop hfind).mpr ⟨rfl, htaken, hstored⟩)
    have hlocal := (localVar_clean_iff (d := { d with initial? := none })).mpr
      ⟨s', [], hnew, rfl, rfl, rfl⟩
    refine ⟨_, s', rest, declare_clean_iff.mpr ⟨symbol, hlocal⟩, ?_, rfl⟩
    exact stmts_cons_clean_iff.mpr
      ⟨rest, s', [], hassigned, stmts_nil_clean_iff.mpr ⟨rfl, rfl⟩, (List.append_nil _).symm⟩

/-! ## What the variable holds -/

/-- A literal is too long for the stack exactly if its data are; only texts can be. -/
theorem isLong_iff {shape : VarType} {own : Value} (hshape : e.literalType? = some shape)
    (hown : e.literal shape = .ok own) :
    e.isLong = true ↔ OperandStack.maxValueSize < own.data.length := by
  -- numbers take four bytes in whichever of their two types they are read
  have hnumber {t : Token} (hlong : e.isLong = false) (h : e.literal (Expr.numberType t) = .ok own) :
      e.isLong = true ↔ OperandStack.maxValueSize < own.data.length := by
    have hsize : own.data.length = 4 := by
      rcases Expr.numberType_cases t with htype | htype
      · rw [htype] at h
        have hfills := Expr.fills_literal (t := .int) ⟨rfl, by decide⟩ h
        exact hfills.size 4 (by rw [hfills.type]; rfl)
      · rw [htype] at h
        have hfills := Expr.fills_literal (t := .float) ⟨rfl, by decide⟩ h
        exact hfills.size 4 (by rw [hfills.type]; rfl)
    rw [hlong, hsize]
    exact iff_of_false (by decide) (by decide)
  cases Expr.isLiteral_of_literalType? hshape with
  | number t => exact hnumber rfl hown
  | signed t h => exact hnumber rfl hown
  | string opening value =>
      rw [Expr.literal_string, if_pos rfl] at hown
      obtain rfl := Except.ok.inj hown
      simp only [Expr.isLong, decide_eq_true_eq, Value.ofText, List.length_append,
        List.length_singleton]
      omega
  | truth h =>
      have hfills := Expr.fills_literal (t := .bool) ⟨rfl, by decide⟩ hown
      rw [hfills.size 1 (by rw [hfills.type]; rfl)]
      exact iff_of_false (by simp [Expr.isLong]) (by decide)
  | object h =>
      simp only [Expr.literal, hshape] at hown
      cases hown

/-- The value that the code of a literal pushes. -/
theorem puts_constant {shape : VarType} {own : Value} {attached : Handle}
    (hcode : LiteralCode e shape code) (hconstant : e.isConstant = true)
    (hown : e.literal shape = .ok own) :
    code = literalCode own ∧ Machine.Puts attached code own := by
  rw [LiteralCode, if_pos hconstant] at hcode
  obtain ⟨own', hown', rfl⟩ := hcode
  obtain rfl := Except.ok.inj (hown.symm.trans hown')
  exact ⟨rfl, Machine.puts_literalCode own⟩

/-- The two words for objects push a handle: none, or the attached one. -/
theorem puts_object {shape : VarType} {attached : Handle} (hcode : LiteralCode e shape code)
    (hconstant : e.isConstant = false) : Machine.Puts attached code
      (.ofHandle (if e.isNull then Name.nullObject else attached).toInt) := by
  rw [LiteralCode, hconstant, if_neg (by decide)] at hcode
  rw [hcode]
  cases e.isNull with
  | true => exact Machine.puts_null
  | false => exact Machine.puts_attached

variable {shape t : VarType} {id : Id} {size : UInt64} {m : Machine} {offset : Nat}

/-- An object has no bytes of its own: it neither vanishes nor is it long. -/
structure ObjectFacts (e : Expr) (t : VarType) : Prop where
  /-- Objects have a value as every type that can hold one. -/
  keeps : e.vanishes t = false
  /-- An object is never too long for a type. -/
  short : e.isLong = false
  /-- The value is the handle, converted. -/
  value : ∀ attached, e.valueAs t attached
    = (Value.ofHandle (if e.isNull then Name.nullObject else attached).toInt).convert t

theorem objectFacts (hshape : e.literalType? = some .object) (t : VarType) : ObjectFacts e t where
  keeps := by
    simp only [Expr.vanishes, hshape]
    rfl
  short := by
    cases e with
    | string => exact absurd (Option.some.inj hshape) (by decide)
    | _ => rfl
  value attached := by
    have hnone : e.literal t = .error (.mismatch .object t) := by
      unfold Expr.literal
      rw [hshape]
      rfl
    rw [Expr.valueAs, hnone]

/-- Storing a literal converts it from its own shape to the type of the variable. -/
theorem outcome_of_stored (ht : t.Storable) (hshape : e.literalType? = some shape)
    (htaken : e.TakenBy t) (hstored : StoredCode e shape id code)
    (h : m.Faces offset (.allocate size t id :: code)) :
    if e.isLong then m.Breaks (.allocate size t id :: code) .stackUnderflow
    else m.Gives offset (.allocate size t id :: code) id
      (if e.vanishes t then .ofBool false else e.valueAs t m.attached) := by
  obtain ⟨value, hvalue, rfl⟩ := hstored
  cases hconstant : e.isConstant with
  | true =>
      obtain ⟨v, hv⟩ := htaken hconstant
      obtain ⟨own, hown⟩ : ∃ own, e.literal shape = .ok own := by
        rw [LiteralCode, if_pos hconstant] at hvalue
        obtain ⟨own, hown, -⟩ := hvalue
        exact ⟨own, hown⟩
      have hsettles := Expr.settles_literal hshape hconstant hv
      rw [hown] at hsettles
      obtain ⟨hcode, hputs⟩ : _ ∧ Machine.Puts m.attached value own :=
        puts_constant hvalue hconstant hown
      have hlong := isLong_iff hshape hown
      have hkind : e.valueAs t m.attached = v := by rw [Expr.valueAs, hv]
      rw [hkind, ← hsettles.2]
      have hknown := Expr.known_literal hown
      split
      · next hyes =>
          -- the data of a value that was pushed by code is shorter than that code
          have hbound := h.sizeAll_lt
          have hdata := Machine.length_data_le own
          simp only [Instr.sizeAll, Instr.sizeAll_append, hcode] at hbound
          exact Machine.breaks_stored hputs ⟨hknown, by omega⟩ (hlong.mp hyes) h
      · -- the value fits the stack, so the machine stores it, converted
        next hno =>
          have hsmall : own.data.length ≤ OperandStack.maxValueSize := by
            rw [hlong] at hno
            exact Nat.not_lt.mp hno
          exact Machine.gives_stored ht hputs ⟨hknown, hsmall⟩ h
  | false =>
      obtain rfl := (isConstant_eq_false_iff hshape).mp hconstant
      -- objects are eight bytes: never too long, never lost in the conversion
      have hfacts := objectFacts hshape t
      have hputs : Machine.Puts m.attached value _ := puts_object hvalue hconstant
      rw [hfacts.short, hfacts.keeps, hfacts.value]
      exact Machine.gives_stored ht hputs
        ⟨rfl, Nat.le_trans (Nat.le_of_eq (Text.length_littleEndian 8 _)) (by decide)⟩ h

/-- Starting with a literal gives the variable its value as the type of the variable. -/
theorem gives_of_start (ht : t.Storable) (hshape : e.literalType? = some shape)
    (hstart : StartCode e shape t id code) (h : m.Faces offset (.allocate size t id :: code)) :
    m.Gives offset (.allocate size t id :: code) id (e.valueAs t m.attached) := by
  obtain ⟨hsound, hcode⟩ := hstart
  cases hconstant : e.isConstant with
  | true =>
      rw [hconstant, if_pos rfl] at hcode
      obtain ⟨v, hv, rfl⟩ := hcode
      have hself : (⟨t, v.data⟩ : Value) = v := by rw [← (Expr.fills_literal ht hv).type]
      have hkind : e.valueAs t m.attached = v := by rw [Expr.valueAs, hv]
      rw [hkind, ← hself]
      exact Machine.gives_set ht h
  | false =>
      rw [hconstant, if_neg (by decide)] at hcode
      obtain rfl := (isConstant_eq_false_iff hshape).mp hconstant
      have houtcome := outcome_of_stored ht hshape (fun h => absurd h (by simp [hconstant])) hcode h
      have hfacts := objectFacts hshape t
      simpa only [hfacts.keeps, hfacts.short, Bool.false_eq_true, if_false] using houtcome

/-! ## The two ways compared -/

/-- A literal that a type takes can be pushed exactly if it keeps to the range of its own shape. -/
theorem exists_literalCode_iff (hshape : e.literalType? = some shape) (htaken : e.TakenBy t) :
    (∃ code, LiteralCode e shape code) ↔ e.inShape = true := by
  cases hconstant : e.isConstant with
  | true =>
      obtain ⟨v, hv⟩ := htaken hconstant
      have hsettles := Expr.settles_literal hshape hconstant hv
      simp only [LiteralCode, hconstant, if_true]
      cases hown : e.literal shape with
      | ok own =>
          rw [hown] at hsettles
          exact iff_of_true ⟨_, own, rfl, rfl⟩ hsettles.1
      | error error =>
          rw [hown] at hsettles
          have hout : e.inShape = false := hsettles
          exact iff_of_false (by simp) (by simp [hout])
  | false =>
      obtain rfl := (isConstant_eq_false_iff hshape).mp hconstant
      have hin : e.inShape = true := by
        simp only [Expr.inShape, hshape]
        rfl
      refine iff_of_true ?_ hin
      simp [LiteralCode, hconstant]

/-- A declaration without a value is accepted if the name can be introduced. -/
theorem accepts_bare_iff : Accepts (stmts ctx (declaration d none)) s
    ↔ ∃ symbol s', Introduces d s symbol s' := by
  constructor
  · rintro ⟨code, s', h⟩
    obtain ⟨symbol, hnew, -⟩ := bare_clean_iff.mp h
    exact ⟨symbol, s', hnew⟩
  · rintro ⟨symbol, s', hnew⟩
    exact ⟨_, s', bare_clean_iff.mpr ⟨symbol, hnew, rfl⟩⟩

/-- A variable can start with a literal if its type takes the literal, an object only if it is one
itself. -/
theorem accepts_initialised_iff (hshape : e.literalType? = some shape) :
    Accepts (stmts ctx (declaration d (some e))) s
      ↔ Accepts (stmts ctx (declaration d none)) s ∧ e.TakenBy d.type
        ∧ (shape = .object → d.type = .object) := by
  rw [accepts_bare_iff]
  constructor
  · rintro ⟨code, s', h⟩
    obtain ⟨symbol, rest, hnew, ⟨hsound, hcode⟩, -⟩ := (initialised_clean_iff hshape).mp h
    refine ⟨⟨symbol, s', hnew⟩, fun hconstant => ?_, hsound⟩
    rw [if_pos hconstant] at hcode
    obtain ⟨v, hv, -⟩ := hcode
    exact ⟨v, hv⟩
  · rintro ⟨⟨symbol, s', hnew⟩, htaken, hsound⟩
    -- conversely there is code for whatever was accepted
    have hcode : ∃ rest, StartCode e shape d.type symbol.id rest := by
      -- constants are written as bytes, objects are pushed and stored
      cases hconstant : e.isConstant with
      | true =>
          obtain ⟨v, hv⟩ := htaken hconstant
          refine ⟨[.set symbol.id v.data], hsound, ?_⟩
          rw [hconstant, if_pos rfl]
          exact ⟨v, hv, rfl⟩
      | false =>
          obtain ⟨value, hvalue⟩ : ∃ code, LiteralCode e shape code := by
            simp [LiteralCode, hconstant]
          refine ⟨value ++ [.withWord .popVar symbol.id], hsound, ?_⟩
          rw [hconstant, if_neg (by decide)]
          exact ⟨value, hvalue, rfl⟩
    obtain ⟨rest, hstart⟩ := hcode
    exact ⟨_, s', (initialised_clean_iff hshape).mpr ⟨symbol, rest, hnew, hstart, rfl⟩⟩

section

variable {name : Text} {position operator target : Token}

/-- A literal can be assigned if the type of the variable takes it and its own shape can hold it. -/
theorem accepts_assigned_iff (hshape : e.literalType? = some shape) (hop : operator.kind = .assign)
    (htarget : target.text = d.name) :
    Accepts (stmts ctx (declareThenAssign d name position operator target e)) s
      ↔ Accepts (stmts ctx (declaration d none)) s ∧ e.TakenBy d.type ∧ e.inShape = true := by
  rw [accepts_bare_iff]
  constructor
  · rintro ⟨code, s', h⟩
    obtain ⟨symbol, rest, hnew, htaken, ⟨value, hvalue, -⟩, -⟩ :=
      (assigned_clean_iff hshape hop htarget).mp h
    exact ⟨⟨symbol, s', hnew⟩, htaken, (exists_literalCode_iff hshape htaken).mp ⟨value, hvalue⟩⟩
  · rintro ⟨⟨symbol, s', hnew⟩, htaken, hin⟩
    obtain ⟨value, hvalue⟩ := (exists_literalCode_iff hshape htaken).mpr hin
    exact ⟨_, s', (assigned_clean_iff hshape hop htarget).mpr
      ⟨symbol, _, hnew, htaken, ⟨value, hvalue, rfl⟩, rfl⟩⟩

/-- Starting with a literal and having it assigned, compared. Both need that the variable can be
declared and that its type takes the literal. Beyond that the first refuses the objects for a variable
that is none, and the second a number that is out of the range of its own shape. Where both are
accepted they leave the generator in the same state. A machine that runs the first has the value of
the literal in the variable behind it, as a value of the variable's type; one that runs the second has
the same value there, unless the literal vanishes or is too long for the operand stack. -/
theorem literal_initialised_or_assigned (ctx : FunctionContext) (s : GenState) (name : Text)
    (position operator target : Token) (hshape : e.literalType? = some shape)
    (ht : d.type.Storable) (hop : operator.kind = .assign) (htarget : target.text = d.name) :
    (Accepts (stmts ctx (declaration d (some e))) s
        ↔ Accepts (stmts ctx (declaration d none)) s ∧ e.TakenBy d.type
          ∧ (shape = .object → d.type = .object))
      ∧ (Accepts (stmts ctx (declareThenAssign d name position operator target e)) s
        ↔ Accepts (stmts ctx (declaration d none)) s ∧ e.TakenBy d.type ∧ e.inShape = true)
      ∧ ∀ bare s', Clean (stmts ctx (declaration d none)) s bare s' →
        ∃ symbol, s'.scope.find? d.name = some symbol ∧ symbol.type = d.type
          ∧ (∀ code s₁, Clean (stmts ctx (declaration d (some e))) s code s₁ → s₁ = s'
            ∧ ∀ (m : Machine) (offset : Nat), m.Faces offset code →
              m.Gives offset code symbol.id (e.valueAs d.type m.attached))
          ∧ (∀ code s₂, Clean (stmts ctx (declareThenAssign d name position operator target e)) s
              code s₂ → s₂ = s'
            ∧ ∀ (m : Machine) (offset : Nat), m.Faces offset code →
              if e.isLong then m.Breaks code .stackUnderflow
              else m.Gives offset code symbol.id
                (if e.vanishes d.type then .ofBool false else e.valueAs d.type m.attached)) := by
  refine ⟨accepts_initialised_iff hshape, accepts_assigned_iff hshape hop htarget, ?_⟩
  intro bare s' hbare
  -- all three variants introduce the same variable, so the generator is in one state behind them
  obtain ⟨symbol, hnew, -⟩ := bare_clean_iff.mp hbare
  refine ⟨symbol, hnew.find?.1, hnew.find?.2, ?_, ?_⟩
  · intro code s₁ hclean
    obtain ⟨symbol', rest, hnew', hstart, rfl⟩ := (initialised_clean_iff hshape).mp hclean
    obtain ⟨rfl, rfl⟩ := hnew.unique hnew'
    exact ⟨rfl, fun m offset h => gives_of_start ht hshape hstart h⟩
  · intro code s₂ hclean
    obtain ⟨symbol', rest, hnew', htaken, hstored, rfl⟩ :=
      (assigned_clean_iff hshape hop htarget).mp hclean
    obtain ⟨rfl, rfl⟩ := hnew.unique hnew'
    exact ⟨rfl, fun m offset h => outcome_of_stored ht hshape htaken hstored h⟩

end

/-- The declaration of `uint x` inside a function. -/
def wideVariable : VarDecl := ⟨"x", 0, ⟨.text, "x", 1, []⟩, .uint, none⟩

/-- A number that a uint can hold and an int cannot. -/
def wideNumber : Expr := .number ⟨.number, "3000000000", 1, []⟩

/-- What is known in front of the first statement of a function `f`. -/
def wideBefore : GenState := { scope := ⟨"f", [], []⟩ }

/-- The variable once it is declared. -/
def wideSymbol : Symbol := ⟨"x", "f.x", Name.id "f.x", .uint⟩

/-- What is known behind its declaration. -/
def wideBehind : GenState := { names := [(wideSymbol.id, "f.x")], scope := ⟨"f", [wideSymbol], []⟩ }

/-- The code of a uint that starts with the number. -/
def wideCode : Code :=
  [.allocate 4 .uint wideSymbol.id, .set wideSymbol.id (Value.ofUint 3000000000).data]

/-- The code of the example lies within the ranges of its operands. -/
theorem encodable_wideCode : ∀ i ∈ wideCode, i.Encodable := by
  simp only [wideCode, List.forall_mem_cons, List.not_mem_nil, false_implies, implies_true, and_true]
  exact ⟨Instr.encodable_allocate _ _ _, Instr.encodable_set (by decide)⟩

/-- A machine in front of that code. -/
def wideMachine : Machine :=
  { Machine.ofProgram {} with
    frames := [{ id := 0, function := ⟨0, .uint, Instr.encodeAll wideCode⟩ }], state := .running }

theorem wideMachine_faces : wideMachine.Faces 0 wideCode :=
  ⟨rfl, rfl, _, _, rfl, rfl, Placed.whole encodable_wideCode, by decide⟩

/-- A uint can start with 3000000000 and holds it then, but the assignment is refused. -/
theorem wide_number_starts_only :
    wideNumber.literalType? = some .int ∧ wideVariable.type.Storable
      ∧ Accepts (stmts ⟨"f", .uint⟩ (declaration wideVariable (some wideNumber))) wideBefore
      ∧ wideMachine.Gives 0 wideCode wideSymbol.id (.ofUint 3000000000)
      ∧ ¬ Accepts (stmts ⟨"f", .uint⟩ (declareThenAssign wideVariable [] ⟨.text, "x", 2, []⟩
          ⟨.assign, "=", 2, []⟩ ⟨.text, "x", 2, []⟩ wideNumber)) wideBefore := by
  have hshape : wideNumber.literalType? = some .int := by decide
  have htype : wideVariable.type.Storable := ⟨by decide, by decide⟩
  have hbare : Clean (stmts ⟨"f", .uint⟩ (declaration wideVariable none)) wideBefore
      [.allocate 4 .uint wideSymbol.id] wideBehind := by rfl
  have hwide : Clean (stmts ⟨"f", .uint⟩ (declaration wideVariable (some wideNumber))) wideBefore
      wideCode wideBehind := by rfl
  obtain ⟨-, hassign, hruns⟩ := literal_initialised_or_assigned ⟨"f", .uint⟩ wideBefore []
    ⟨.text, "x", 2, []⟩ ⟨.assign, "=", 2, []⟩ ⟨.text, "x", 2, []⟩ hshape htype rfl rfl
  refine ⟨hshape, htype, ⟨_, _, hwide⟩, ?_, ?_⟩
  · obtain ⟨symbol, hfind, -, hstarts, -⟩ := hruns _ _ hbare
    obtain rfl : wideSymbol = symbol := Option.some.inj (hfind ▸ rfl)
    have hgives := (hstarts _ _ hwide).2 wideMachine 0 wideMachine_faces
    have hvalue : wideNumber.valueAs .uint wideMachine.attached = .ofUint 3000000000 := by rfl
    rw [← hvalue]
    exact hgives
  · intro haccepts
    exact absurd (hassign.mp haccepts).2.2 (by decide)

end Gen

end TickScript
