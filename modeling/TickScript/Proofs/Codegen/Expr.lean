import TickScript.Proofs.Codegen.Layout
import TickScript.Proofs.Name

/-!
# What the generator emits for expressions

In a clean run the generator emits code in the sense of `Proofs.Codegen.Layout`. Here the part about
expressions: names are only added, the scope stays as it is, and the code is that of the expression
for every unit whose tables know at least what the generator knows at its end.

A clean run is a run without reports. Only for such a run does the generator promise anything: what
it emits behind an error is never assembled. Each lemma named `…_clean` inverts the clean run of one
stage, and says which code it left and how the state changed.

The tables that resolve a name are those of the finished unit, not those of the moment: code that is
emitted early refers to ids that are still in place when the unit is complete, since names are only
added (`Grows`) and a unit that knows the last state knows every earlier one (`Fits.mono`). That is
what lets the rules of `ExprCode` speak of a single set of tables.
-/

namespace TickScript.Gen

open Stage

/-! ## States -/

/-- Names are added; the tables stay. -/
structure Grows (s s' : GenState) : Prop where
  /-- Registered names stay, and others may come. -/
  names : ∀ id name, s.names.get? id = some name → s'.names.get? id = some name
  /-- The globals are those of the declarations. -/
  globals : s'.globals = s.globals
  /-- The functions are those of the declarations. -/
  functions : s'.functions = s.functions

/-- The tables of a unit know what a state knows. -/
structure Fits (u : Tables) (s : GenState) : Prop where
  /-- The names of the unit include those registered so far. -/
  names : ∀ id name, s.names.get? id = some name → u.names.get? id = some name
  globals : u.globals = s.globals
  functions : u.functions = s.functions

/-- The variables of the unit have identifiers for names, and each name is behind its id. -/
def GlobalsNamed (s : GenState) : Prop := ∀ name symbol, s.globals.get? name = some symbol →
  isIdentifier name = true ∧ s.names.get? symbol.id = some name

/-- The variables of a state have their names, and each name is behind its id. -/
structure Scoped (s : GenState) : Prop where
  /-- Every symbol of the scope is named after the function. -/
  named : Named s.scope.function s.scope.symbols
  /-- The id of every symbol stands for its qualified name. -/
  registered : ∀ symbol ∈ s.scope.symbols, s.names.get? symbol.id = some symbol.qualified
  /-- The globals are named too. -/
  globals : GlobalsNamed s

/-- A run that leaves the scope as it is. -/
structure Steady (s s' : GenState) : Prop extends Grows s s' where
  scope : s'.scope = s.scope

theorem Grows.refl (s : GenState) : Grows s s := ⟨fun _ _ h => h, rfl, rfl⟩

/-- Names that were added stay, so growing composes over the stages of a run. -/
theorem Grows.trans {s s₁ s₂ : GenState} (h : Grows s s₁) (h' : Grows s₁ s₂) : Grows s s₂ :=
  ⟨fun id name hget => h'.names id name (h.names id name hget), h'.globals.trans h.globals,
    h'.functions.trans h.functions⟩

theorem Steady.refl (s : GenState) : Steady s s := ⟨.refl s, rfl⟩

theorem Steady.trans {s s₁ s₂ : GenState} (h : Steady s s₁) (h' : Steady s₁ s₂) : Steady s s₂ :=
  ⟨h.toGrows.trans h'.toGrows, h'.scope.trans h.scope⟩

/-- Tables that know what the generator knows at its end know what it knew before. -/
theorem Fits.mono {u : Tables} {s s' : GenState} (h : Fits u s') (hgrows : Grows s s') : Fits u s :=
  ⟨fun id name hget => h.names id name (hgrows.names id name hget), h.globals.trans hgrows.globals,
    h.functions.trans hgrows.functions⟩

/-- Adding names takes none away from the globals. -/
theorem GlobalsNamed.mono {s s' : GenState} (h : GlobalsNamed s) (hgrows : Grows s s') :
    GlobalsNamed s' := by
  intro name symbol hget
  rw [hgrows.globals] at hget
  obtain ⟨hident, hname⟩ := h name symbol hget
  exact ⟨hident, hgrows.names _ _ hname⟩

theorem Scoped.steady {s s' : GenState} (h : Scoped s) (hsteady : Steady s s') : Scoped s' := by
  refine ⟨by rw [hsteady.scope]; exact h.named, ?_, h.globals.mono hsteady.toGrows⟩
  rw [hsteady.scope]
  exact fun symbol hmem => hsteady.names _ _ (h.registered symbol hmem)

/-- No local variable has the id of a variable of the unit. -/
theorem Scoped.global_notMem {s : GenState} (h : Scoped s) {name : Text} {symbol : Symbol}
    (hglobal : s.globals.get? name = some symbol) : symbol.id ∉ ids s.scope.symbols := by
  intro hmem
  obtain ⟨other, hother, hid⟩ := List.mem_map.mp hmem
  obtain ⟨hident, hname⟩ := h.globals name symbol hglobal
  have hqualified := h.registered other hother
  rw [hid, hname] at hqualified
  exact h.named.qualified_ne_identifier hother hident (Option.some.inj hqualified).symm

/-! ## Small parts -/

/-- A registration that reports nothing leaves the name under its id, whether it was new or there
already. -/
theorem register_clean {t : Token} {id : Id} {name : Text} {s s' : GenState} {a : Unit}
    (h : Clean (register t id name) s a s') :
    Steady s s' ∧ s'.names.get? id = some name := by
  unfold register at h
  simp only [clean_get_bind] at h
  split at h
  · next other hother =>
      split at h
      · exact absurd h not_clean_report
      · next heq =>
          obtain ⟨-, rfl⟩ := clean_pure.mp h
          exact ⟨.refl s, by rw [hother]; simpa using heq⟩
  · next hnone =>
      obtain rfl := clean_modify.mp h
      refine ⟨⟨⟨fun other name' hget => ?_, rfl, rfl⟩, rfl⟩, Table.get?_set_self ..⟩
      rw [Table.get?_set_of_ne _ _ fun heq => by rw [heq, hnone] at hget; cases hget]
      exact hget

/-- A name that resolves is found in the scope or among the globals, and the tables of the finished
unit resolve it the same way. -/
theorem resolve_clean {t : Token} {s s' : GenState} {r : Option Symbol}
    (h : Clean (resolve t) s r s') (hs : Scoped s) : s' = s ∧ ∃ symbol, r = some symbol
      ∧ ∀ u, Fits u s → Resolves u s.scope.symbols t.text symbol := by
  unfold resolve at h
  simp only [clean_get_bind] at h
  split at h
  · next symbol hfind =>
      obtain ⟨rfl, rfl⟩ := clean_pure.mp h
      exact ⟨rfl, symbol, rfl, fun u _ => .visible hfind⟩
  · next hfind =>
      split at h
      · next symbol hglobal =>
          obtain ⟨rfl, rfl⟩ := clean_pure.mp h
          exact ⟨rfl, symbol, rfl, fun u hu =>
            .global hfind (by rw [hu.globals]; exact hglobal) (hs.global_notMem hglobal)⟩
      · split at h <;> exact absurd h not_clean_report_bind

/-- A jump is emitted only within the reach of its operand. -/
theorem jump_clean {t : Token} {op : Opcode} {distance : Int} {s s' : GenState} {code : Code}
    (h : Clean (jump t op distance) s code s') :
    s' = s ∧ Reachable distance ∧ code = [jumpInstr op distance] := by
  unfold jump at h
  split at h
  · next i hjump =>
      obtain ⟨rfl, rfl⟩ := clean_pure.mp h
      obtain ⟨rfl, -, hlow, hhigh⟩ := Instr.relativeJump_eq_ok hjump
      exact ⟨rfl, ⟨hlow, hhigh⟩, rfl⟩
  · exact absurd h not_clean_report_bind

/-- A literal is pushed as the value that it has by its own shape. -/
theorem literalValue_clean {e : Expr} {s s' : GenState} {code : Code}
    (h : Clean (literalValue e) s code s') :
    s' = s ∧ ∃ v, e.literal (e.literalType?.getD .invalid) = .ok v ∧ code = literalCode v := by
  unfold literalValue at h
  rw [literalOf_eq, pure_bind] at h
  split at h
  · next v hv =>
      obtain ⟨rfl, rfl⟩ := clean_pure.mp h
      exact ⟨rfl, v, hv, rfl⟩
  · exact absurd h not_clean_report_bind

/-- Each word that stands for a value has a piece of code of its own. -/
theorem wordValue_clean {t : Token} {s s' : GenState} {code : Code}
    (h : Clean (wordValue t) s code s') (u : Tables) (Γ : List Symbol) (want : Want) :
    s' = s ∧ ExprCode u Γ (.one want (.word t)) (fromValue want code) := by
  unfold wordValue at h
  split at h
  · next hkind =>
      obtain ⟨rfl, rfl⟩ := clean_pure.mp h
      exact ⟨rfl, .true_ hkind⟩
  · next hkind =>
      obtain ⟨rfl, rfl⟩ := clean_pure.mp h
      exact ⟨rfl, .false_ hkind⟩
  · next hkind =>
      obtain ⟨rfl, rfl⟩ := clean_pure.mp h
      exact ⟨rfl, .null hkind⟩
  · next hkind =>
      obtain ⟨rfl, rfl⟩ := clean_pure.mp h
      exact ⟨rfl, .attached hkind⟩
  · exact absurd h not_clean_report_bind

/-- A check that reports nothing has found that the value may be assigned. -/
theorem fits_clean {name : Text} {e : Expr} {type : VarType} {s s' : GenState} {r : Bool}
    (h : Clean (fits name e type) s r s') : s' = s ∧ r = true := by
  unfold fits at h
  split at h
  · rw [literalOf_eq, pure_bind] at h
    split at h
    · obtain ⟨rfl, rfl⟩ := clean_pure.mp h
      exact ⟨rfl, rfl⟩
    · exact absurd h not_clean_report_bind
  · obtain ⟨rfl, rfl⟩ := clean_pure.mp h
    exact ⟨rfl, rfl⟩

/-- A call that is not refused names a function with as many parameters as it has arguments, or one
that this unit does not declare. -/
theorem calledFunction_clean {callee : Token} {count : Nat} {s s' : GenState}
    {r : Option (Option FuncDecl)} (h : Clean (calledFunction callee count) s r s') :
    s' = s ∧ r = some (s.functions.get? callee.text)
      ∧ ∀ f, s.functions.get? callee.text = some f → f.params.length = count := by
  unfold calledFunction at h
  simp only [clean_get_bind] at h
  split at h
  · exact absurd h not_clean_report_bind
  · split at h
    · next f hf =>
        split at h
        · exact absurd h not_clean_report_bind
        · next hcount =>
            obtain ⟨rfl, rfl⟩ := clean_pure.mp h
            refine ⟨rfl, by rw [hf], fun g hg => ?_⟩
            obtain rfl := Option.some.inj (hf.symm.trans hg)
            simpa using hcount
    · next hf =>
        obtain ⟨rfl, rfl⟩ := clean_pure.mp h
        exact ⟨rfl, by rw [hf], fun g hg => by rw [hf] at hg; cases hg⟩

/-- The check of an argument changes nothing. -/
theorem checkArgument_clean {f? : Option FuncDecl} {index : Nat} {e : Expr} {s s' : GenState}
    {a : Unit} (h : Clean (checkArgument f? index e) s a s') : s = s' := by
  unfold checkArgument at h
  split at h
  · exact (clean_pure.mp h).2
  · split at h
    · split at h
      · exact absurd h not_clean_breakDown
      · rw [literalOf_eq, pure_bind] at h
        split at h
        · exact (clean_pure.mp h).2
        · exact absurd h not_clean_report
    · exact (clean_pure.mp h).2

/-- Both sides of an increment take the layout of a step at the variable that the name stands for. -/
theorem stepCode_clean {operator target : Token} {after : Bool} {want : Want} {s s' : GenState}
    {code : Code} (h : Clean (stepCode operator target after want) s code s') (hs : Scoped s) :
    s' = s ∧ ∀ u, Fits u s →
      ExprCode u s.scope.symbols (.one want (.step operator target after)) code := by
  unfold stepCode at h
  obtain ⟨r, s₁, hresolve, h⟩ := h.bind_inv (attentive_resolve target)
  obtain ⟨rfl, symbol, rfl, hresolves⟩ := resolve_clean hresolve hs
  have hcode : stepLayout operator symbol.id after want = code ∧ s₁ = s' := by
    simp only at h
    simp only [stepLayout]
    split at h
    · next hwant => simpa [hwant] using clean_pure.mp h
    · next hwant =>
        split at h
        · next hafter => simpa [hwant, hafter] using clean_pure.mp h
        · next hafter => simpa [hwant, hafter] using clean_pure.mp h
  obtain ⟨rfl, rfl⟩ := hcode
  exact ⟨rfl, fun u hu => .step (hresolves u hu)⟩

/-! ## Expressions -/

/-- A clean run of the code of expressions: the scope stays, and the code is that of the piece for
every unit that makes the calls of the piece. -/
structure Emits (piece : ExprPiece) (sites : List (Text × Nat)) (s : GenState) (code : Code)
    (s' : GenState) : Prop extends Steady s s' where
  code : ∀ u, Fits u s' → (∀ site ∈ sites, site ∈ u.calls) →
    ExprCode u s.scope.symbols piece code

/-- The code of a piece as seen from the state before an earlier one. -/
theorem Emits.code_of {piece : ExprPiece} {sites : List (Text × Nat)} {s s₁ s₂ s' : GenState}
    {code : Code} (h : Emits piece sites s₁ code s₂) (hbefore : Steady s s₁) (hafter : Grows s₂ s')
    {u : Tables} (hu : Fits u s') (hsites : ∀ site ∈ sites, site ∈ u.calls) :
    ExprCode u s.scope.symbols piece code :=
  hbefore.scope ▸ h.code u (hu.mono hafter) hsites

/-- Every clean run of the code of an expression emits that code. -/
def Emitted (want : Want) (e : Expr) : Prop :=
  ∀ {s code s'}, Clean (expr want e) s code s' → Scoped s → Emits (.one want e) e.callSites s code s'

/-- Every clean run of the code of arguments emits that code. -/
def AllEmitted (args : List Expr) : Prop :=
  ∀ {f? index s code s'}, Clean (arguments f? index args) s code s' → Scoped s →
    Emits (.all args) (Expr.allCallSites args) s code s'

theorem emitted_ident (want : Want) (t : Token) : Emitted want (.ident t) := by
  intro s code s' h hs
  unfold expr at h
  obtain ⟨r, s₁, hresolve, h⟩ := h.bind_inv (attentive_resolve t)
  obtain ⟨rfl, symbol, rfl, hresolves⟩ := resolve_clean hresolve hs
  obtain ⟨rfl, rfl⟩ := clean_pure.mp h
  exact ⟨.refl _, fun u hu _ => .ident (hresolves u hu)⟩

theorem emitted_number (want : Want) (t : Token) : Emitted want (.number t) := by
  intro s code s' h hs
  unfold expr at h
  obtain ⟨value, s₁, hvalue, h⟩ := h.bind_inv (attentive_literalValue _)
  obtain ⟨rfl, v, hv, rfl⟩ := literalValue_clean hvalue
  obtain ⟨rfl, rfl⟩ := clean_pure.mp h
  exact ⟨.refl _, fun u _ _ => .number hv⟩

theorem emitted_string (want : Want) (opening : Token) (value : Text) :
    Emitted want (.string opening value) := by
  intro s code s' h hs
  unfold expr at h
  obtain ⟨rfl, rfl⟩ := clean_pure.mp h
  exact ⟨.refl _, fun u _ _ => .string⟩

theorem emitted_word (want : Want) (t : Token) : Emitted want (.word t) := by
  intro s code s' h hs
  unfold expr at h
  obtain ⟨value, s₁, hvalue, h⟩ := h.bind_inv (attentive_wordValue t)
  obtain ⟨rfl, rfl⟩ := clean_pure.mp h
  obtain ⟨rfl, -⟩ := wordValue_clean hvalue ⟨[], [], [], []⟩ [] want
  exact ⟨.refl _, fun u _ _ => (wordValue_clean hvalue u _ want).2⟩

/-- A sign in front of a number belongs to the number. -/
theorem emitted_unary (want : Want) (operator : Token) {operand : Expr}
    (ih : Emitted .value operand) : Emitted want (.unary operator operand) := by
  intro s code s' h hs
  unfold expr at h
  simp only [Expr.callSites]
  split at h
  · next hkind =>
      split at h
      · -- the minus before a numeral belongs to the numeral
        next t =>
          obtain ⟨value, s₁, hvalue, h⟩ := h.bind_inv (attentive_literalValue _)
          obtain ⟨rfl, v, hv, rfl⟩ := literalValue_clean hvalue
          obtain ⟨rfl, rfl⟩ := clean_pure.mp h
          exact ⟨.refl _, fun u _ _ => .minusNumber hkind hv⟩
      · -- any other operand is evaluated first
        next hnumber =>
          obtain ⟨inner, s₁, hinner, h⟩ := h.bind_inv (attentive_expr .value operand)
          obtain ⟨rfl, rfl⟩ := clean_pure.mp h
          have hemits := ih hinner hs
          exact ⟨hemits.toSteady, fun u hu hsites => .minus hkind (fun t ht => hnumber t ht)
            (hemits.code u hu hsites)⟩
  · next hkind =>
      obtain ⟨inner, s₁, hinner, h⟩ := h.bind_inv (attentive_expr .value operand)
      obtain ⟨rfl, rfl⟩ := clean_pure.mp h
      have hemits := ih hinner hs
      exact ⟨hemits.toSteady, fun u hu hsites => .tilde hkind (hemits.code u hu hsites)⟩
  · next hkind =>
      obtain ⟨inner, s₁, hinner, h⟩ := h.bind_inv (attentive_expr .value operand)
      obtain ⟨rfl, rfl⟩ := clean_pure.mp h
      have hemits := ih hinner hs
      exact ⟨hemits.toSteady, fun u hu hsites => .bang hkind (hemits.code u hu hsites)⟩
  · -- a plus emits nothing of its own
    next hminus htilde hbang =>
      obtain ⟨inner, s₁, hinner, h⟩ := h.bind_inv (attentive_expr .value operand)
      obtain ⟨rfl, rfl⟩ := clean_pure.mp h
      have hemits := ih hinner hs
      exact ⟨hemits.toSteady, fun u hu hsites =>
        .plus hminus htilde hbang (hemits.code u hu hsites)⟩

theorem emitted_step (want : Want) (operator target : Token) (after : Bool) :
    Emitted want (.step operator target after) := by
  intro s code s' h hs
  unfold expr at h
  obtain ⟨rfl, hcode⟩ := stepCode_clean h hs
  exact ⟨.refl _, fun u hu _ => hcode u hu⟩

/-- The two sides are compiled in the same way, whatever the operator makes of them. -/
theorem sides_emitted {w : Want} {left right : Expr} (hleft : Emitted w left)
    (hright : Emitted w right) {finish : Code → Code → Code} {s s' : GenState} {code : Code}
    (h : Clean (do let first ← expr w left
                   let second ← expr w right
                   return finish first second) s code s') (hs : Scoped s) :
    Steady s s' ∧ ∃ first second, code = finish first second ∧ ∀ u, Fits u s' →
      (∀ site ∈ left.callSites ++ right.callSites, site ∈ u.calls) →
      ExprCode u s.scope.symbols (.one w left) first
        ∧ ExprCode u s.scope.symbols (.one w right) second := by
  obtain ⟨first, s₁, hfirst, h⟩ := h.bind_inv (attentive_expr w left)
  obtain ⟨second, s₂, hsecond, h⟩ := h.bind_inv (attentive_expr w right)
  obtain ⟨rfl, rfl⟩ := clean_pure.mp h
  have hfirst := hleft hfirst hs
  have hsecond := hright hsecond (hs.steady hfirst.toSteady)
  refine ⟨hfirst.toSteady.trans hsecond.toSteady, first, second, rfl, fun u hu hsites => ⟨?_, ?_⟩⟩
  · exact hfirst.code_of (.refl s) hsecond.toGrows hu fun site hmem => hsites site (by simp [hmem])
  · exact hsecond.code_of hfirst.toSteady (.refl _) hu fun site hmem =>
      hsites site (by simp [hmem])

theorem emitted_binary (want : Want) {operator : Token} {left right : Expr}
    (hbinary : operator.kind.IsBinary) (hleft : ∀ w, Emitted w left) (hright : ∀ w, Emitted w right) :
    Emitted want (.binary operator left right) := by
  intro s code s' h hs
  unfold expr at h
  simp only [Expr.callSites]
  split at h
  · next relation hrelation =>
      obtain ⟨hsteady, first, second, rfl, hcode⟩ := sides_emitted (hleft _) (hright _) h hs
      exact ⟨hsteady, fun u hu hsites =>
        .relation hrelation (hcode u hu hsites).1 (hcode u hu hsites).2⟩
  · next connective hrelation hconnective =>
      obtain ⟨hsteady, first, second, rfl, hcode⟩ := sides_emitted (hleft _) (hright _) h hs
      exact ⟨hsteady, fun u hu hsites =>
        .connective hrelation hconnective (hcode u hu hsites).1 (hcode u hu hsites).2⟩
  · next hrelation hconnective =>
      obtain ⟨op, hop⟩ : ∃ op, operator.kind.arithmetic? = some op := by
        rcases hbinary with ⟨_, hr⟩ | ⟨_, hc⟩ | harith
        · rw [hrelation] at hr
          cases hr
        · rw [hconnective] at hc
          cases hc
        · exact harith
      simp only [hop, Option.getD_some] at h
      obtain ⟨hsteady, first, second, rfl, hcode⟩ := sides_emitted (hleft _) (hright _) h hs
      exact ⟨hsteady, fun u hu hsites =>
        .arithmetic hrelation hconnective hop (hcode u hu hsites).1 (hcode u hu hsites).2⟩

theorem emitted_assign (want : Want) (operator target : Token) {value : Expr}
    (ih : Emitted .value value) : Emitted want (.assign operator target value) := by
  intro s code s' h hs
  unfold expr at h
  simp only [Expr.callSites]
  obtain ⟨r, s₁, hresolve, h⟩ := h.bind_inv (attentive_resolve target)
  obtain ⟨rfl, symbol, rfl, hresolves⟩ := resolve_clean hresolve hs
  simp only at h
  split at h
  · next hplain =>
      obtain ⟨ok, s₂, hfits, h⟩ := h.bind_inv (attentive_fits _ _ _)
      obtain ⟨rfl, rfl⟩ := fits_clean hfits
      simp only [if_true] at h
      obtain ⟨inner, s₃, hinner, h⟩ := h.bind_inv (attentive_expr .value value)
      obtain ⟨rfl, rfl⟩ := clean_pure.mp h
      have hemits := ih hinner hs
      exact ⟨hemits.toSteady, fun u hu hsites => .assign hplain
        (hresolves u (hu.mono hemits.toGrows)) (hemits.code u hu hsites)⟩
  · next op hcompound =>
      obtain ⟨inner, s₃, hinner, h⟩ := h.bind_inv (attentive_expr .value value)
      obtain ⟨rfl, rfl⟩ := clean_pure.mp h
      have hemits := ih hinner hs
      exact ⟨hemits.toSteady, fun u hu hsites => .compound hcompound
        (hresolves u (hu.mono hemits.toGrows)) (hemits.code u hu hsites)⟩

/-- The calls of the object operations have one argument and no call site. -/
theorem emitted_call (want : Want) (callee : Token) {args : List Expr} (ih : AllEmitted args) :
    Emitted want (.call callee args) := by
  intro s code s' h hs
  unfold expr at h
  simp only [Expr.callSites]
  split at h
  · -- an object operation takes its one argument from the stack, with no call
    next op hop =>
      split at h
      · exact absurd h not_clean_report_bind
      · next hlength =>
          obtain ⟨inner, s₁, hinner, h⟩ := h.bind_inv (attentive_arguments none 0 args)
          obtain ⟨rfl, rfl⟩ := clean_pure.mp h
          have hemits := ih hinner hs
          obtain ⟨arg, rfl⟩ := List.length_eq_one_iff.mp (not_not.mp hlength)
          exact ⟨hemits.toSteady, fun u hu hsites =>
            .object hop (hemits.code u hu fun site hmem => hsites site (by simp [hmem]))⟩
  · next hop =>
      obtain ⟨r, s₁, hcalled, h⟩ := h.bind_inv (attentive_calledFunction callee args.length)
      obtain ⟨rfl, rfl, harity⟩ := calledFunction_clean hcalled
      simp only at h
      obtain ⟨inner, s₂, hinner, h⟩ := h.bind_inv (attentive_arguments _ 0 args)
      obtain ⟨_, s₃, hregister, h⟩ := h.bind_inv (attentive_register _ _ _)
      obtain ⟨rfl, rfl⟩ := clean_pure.mp h
      have hemits := ih hinner hs
      obtain ⟨hsteady, hname⟩ := register_clean hregister
      refine ⟨hemits.toSteady.trans hsteady, fun u hu hsites => ?_⟩
      refine .call hop (hsites _ (by simp [hop])) (fun f hf => harity f ?_) (hu.names _ _ hname)
        (hemits.code_of (.refl _) hsteady.toGrows hu fun site hmem => hsites site (by simp [hmem]))
      -- neither the arguments nor the registration touch the functions
      rw [← hf, hu.functions, hsteady.functions, hemits.functions]

/-- An index is refused, so its code has no clean run. -/
theorem emitted_index (want : Want) (target subscript : Expr) :
    Emitted want (.index target subscript) := by
  intro s code s' h hs
  unfold expr at h
  exact absurd h not_clean_report_bind

theorem allEmitted_nil : AllEmitted [] := by
  intro f? index s code s' h hs
  unfold arguments at h
  obtain ⟨rfl, rfl⟩ := clean_pure.mp h
  exact ⟨.refl _, fun u _ _ => .nil⟩

theorem allEmitted_cons {e : Expr} {rest : List Expr} (hfirst : Emitted .value e)
    (hrest : AllEmitted rest) : AllEmitted (e :: rest) := by
  intro f? index s code s' h hs
  unfold arguments at h
  simp only [Expr.allCallSites]
  obtain ⟨_, s₁, hcheck, h⟩ := h.bind_inv (attentive_checkArgument f? index e)
  obtain rfl := checkArgument_clean hcheck
  obtain ⟨first, s₂, hclean, h⟩ := h.bind_inv (attentive_expr .value e)
  obtain ⟨more, s₃, hmore, h⟩ := h.bind_inv (attentive_arguments f? (index + 1) rest)
  obtain ⟨rfl, rfl⟩ := clean_pure.mp h
  have hemits := hfirst hclean hs
  have hmore := hrest hmore (hs.steady hemits.toSteady)
  refine ⟨hemits.toSteady.trans hmore.toSteady, fun u hu hsites => .cons ?_ ?_⟩
  · exact hemits.code_of (.refl _) hmore.toGrows hu fun site hmem => hsites site (by simp [hmem])
  · exact hmore.code_of hemits.toSteady (.refl _) hu fun site hmem => hsites site (by simp [hmem])

mutual

/-- Code of a clean run, by recursion over the expression: one lemma for each constructor. -/
theorem expr_clean (want : Want) : (e : Expr) → e.Proper → Emitted want e
  | .ident t, _ => emitted_ident want t
  | .number t, _ => emitted_number want t
  | .string opening value, _ => emitted_string want opening value
  | .word t, _ => emitted_word want t
  | .unary operator operand, h =>
      emitted_unary want operator (expr_clean .value operand (by simpa only [Expr.Proper] using h))
  | .step operator target after, _ => emitted_step want operator target after
  | .binary operator left right, h => by
      obtain ⟨hbinary, hleft, hright⟩ : operator.kind.IsBinary ∧ left.Proper ∧ right.Proper := by
        simpa only [Expr.Proper] using h
      exact emitted_binary want hbinary (fun w => expr_clean w left hleft)
        fun w => expr_clean w right hright
  | .assign operator target value, h =>
      emitted_assign want operator target (expr_clean .value value (by simpa only [Expr.Proper] using h))
  | .call callee args, h =>
      emitted_call want callee (arguments_clean args (by simpa only [Expr.Proper] using h))
  | .index target subscript, _ => emitted_index want target subscript

theorem arguments_clean : (args : List Expr) → Expr.AllProper args → AllEmitted args
  | [], _ => allEmitted_nil
  | e :: rest, h => by
      obtain ⟨hfirst, hrest⟩ : e.Proper ∧ Expr.AllProper rest := by
        simpa only [Expr.AllProper] using h
      exact allEmitted_cons (expr_clean .value e hfirst) (arguments_clean rest hrest)

end

end TickScript.Gen
