import TickScript.Proofs.Codegen.Names
import TickScript.Proofs.Codegen.WellFormed

/-!
# Ids in code

Every id that stands in the code of a function is that of a registered name, but for the ids of the
two objects that the machine resolves itself (`Generated.operands`). A variable of the unit has a name
by its declaration and a local one by the list of names of its function, so by induction on the rules
of code all variables that can be seen have names.

The induction carries the names of the variables that can be seen (`KnownScope`), which grow along a
block and go back at its end. The layouts of steps, assignments, branches and loops have a lemma
each, so that a rule of `StmtCode` only has to put its parts together.
-/

namespace TickScript

/-- An id has a name, and it is the id of that name. -/
def Knows (names : Names) (id : Id) : Prop := ∃ name, names.get? id = some name ∧ Name.id name = id

/-- A registered name gives its id a name. -/
theorem Registered.knows {names : Names} {name : Text} (h : Registered names name) :
    Knows names (Name.id name) := ⟨name, h, rfl⟩

namespace Gen

/-- Every id in the code has a name, but for those of the two objects. -/
def Spelled (names : Names) (code : Code) : Prop :=
  ∀ i ∈ code, ∀ id ∈ i.ids, id ≠ Name.nullObject → id ≠ Name.attachedObject → Knows names id

section

variable {names : Names}

theorem spelled_nil : Spelled names [] := by simp [Spelled]

/-- Code spells its ids if its parts do. -/
theorem spelled_append {a b : Code} : Spelled names (a ++ b) ↔ Spelled names a ∧ Spelled names b :=
  List.forall_mem_append

theorem spelled_cons {i : Instr} {code : Code} :
    Spelled names (i :: code) ↔ Spelled names [i] ∧ Spelled names code :=
  spelled_append (a := [i])

/-- Most instructions have no id. -/
theorem spelled_of_ids_eq_nil {i : Instr} (h : i.ids = []) : Spelled names [i] := by
  simp [Spelled, h]

/-- An instruction with one id spells it if the id has a name. -/
theorem spelled_of_ids_eq {i : Instr} {id : Id} (h : i.ids = [id]) (hid : Knows names id) :
    Spelled names [i] := by
  simp [Spelled, h, hid]

theorem spelled_plain (op : Opcode) : Spelled names [.plain op] :=
  spelled_of_ids_eq_nil (by simp [Instr.ids, Instr.plain])

theorem spelled_compare (relation : Relation) : Spelled names [.compare relation] :=
  spelled_of_ids_eq_nil
    (by simp [Instr.ids, Instr.compare, Instr.withWord, Opcode.operands, Operand.id])

theorem spelled_combine (connective : Connective) : Spelled names [.combine connective] :=
  spelled_of_ids_eq_nil
    (by simp [Instr.ids, Instr.combine, Instr.withWord, Opcode.operands, Operand.id])

/-- A jump has a distance, not an id. -/
theorem spelled_jumpInstr {op : Opcode} {distance : Int} (hop : op = .jumpBy ∨ op = .jumpIfBy) :
    Spelled names [jumpInstr op distance] := by
  refine spelled_of_ids_eq_nil ?_
  rcases hop with rfl | rfl <;>
    simp [Instr.ids, jumpInstr, Instr.withWord, Opcode.operands, Operand.distance, Operand.id]

theorem spelled_withId {op : Opcode} {id : Id} (hop : op.operands = [.id]) (hid : Knows names id) :
    Spelled names [.withWord op id] :=
  spelled_of_ids_eq (by simp [Instr.ids, Instr.withWord, hop]) hid

theorem spelled_allocate {size : UInt64} {type : VarType} {id : Id} (hid : Knows names id) :
    Spelled names [.allocate size type id] :=
  spelled_of_ids_eq
    (by simp [Instr.ids, Instr.allocate, Opcode.operands, Operand.id, Operand.size]) hid

theorem spelled_set {id : Id} {data : Text} (hid : Knows names id) :
    Spelled names [.set id data] :=
  spelled_of_ids_eq (by simp [Instr.ids, Instr.set, Opcode.operands, Operand.id, Operand.size]) hid

/-- The two objects have ids of their own, which stand for no name. -/
theorem spelled_object {id : Id} (hid : id = Name.nullObject ∨ id = Name.attachedObject) :
    Spelled names [.withWord .pushVar id] := by
  have hids : (Instr.withWord .pushVar id).ids = [id] := by
    simp [Instr.ids, Instr.withWord, Opcode.operands]
  rcases hid with rfl | rfl <;> simp [Spelled, hids]

theorem spelled_literalCode (v : Value) : Spelled names (literalCode v) := by
  have hpush (word : UInt64) : (Instr.push word).ids = [] := by
    simp [Instr.ids, Instr.push, Instr.withWord, Opcode.operands, Operand.word, Operand.id]
  intro i hi
  obtain ⟨word, rfl⟩ : ∃ word, i = .push word := by
    simp only [literalCode, Instr.literal, List.mem_append, List.mem_map, List.mem_cons,
      List.not_mem_nil, or_false] at hi
    rcases hi with ⟨word, -, rfl⟩ | rfl | rfl <;> exact ⟨_, rfl⟩
  simp [hpush]

theorem spelled_compareZero (relation : Relation) : Spelled names (compareZero relation) :=
  spelled_append.mpr ⟨spelled_literalCode _, spelled_compare relation⟩

theorem spelled_fromValue {want : Want} {code : Code} (h : Spelled names code) :
    Spelled names (fromValue want code) := by
  cases want with
  | value => exact h
  | truth => exact spelled_append.mpr ⟨h, spelled_compareZero _⟩
  | effect => exact spelled_append.mpr ⟨h, spelled_plain _⟩

theorem spelled_fromTruth {want : Want} {code : Code} (h : Spelled names code) :
    Spelled names (fromTruth want code) := by
  cases want with
  | value => exact spelled_append.mpr ⟨h, spelled_plain _⟩
  | truth => exact h
  | effect => exact spelled_append.mpr ⟨h, spelled_cons.mpr ⟨spelled_plain _, spelled_plain _⟩⟩

/-- Both the reading and the writing of a step name the variable. -/
theorem spelled_stepLayout {operator : Token} {id : Id} {after : Bool} {want : Want}
    (hid : Knows names id) : Spelled names (stepLayout operator id after want) := by
  have hload : Spelled names [.withWord .pushVar id] := spelled_withId rfl hid
  have hstore : Spelled names [.withWord .popVar id] := spelled_withId rfl hid
  have hchange := spelled_append.mpr
    ⟨spelled_cons.mpr ⟨hload, spelled_literalCode (.ofInt 1)⟩,
      spelled_cons.mpr ⟨spelled_plain (if operator.kind = .decrement then .sub else .add), hstore⟩⟩
  simp only [stepLayout]
  split
  · exact hchange
  · split
    · exact spelled_fromValue (spelled_cons.mpr ⟨hload, hchange⟩)
    · exact spelled_fromValue (spelled_append.mpr ⟨hchange, hload⟩)

theorem spelled_assignLayout {id : Id} {want : Want} {code : Code} (hid : Knows names id)
    (h : Spelled names code) : Spelled names (assignLayout id want code) := by
  have hload : Spelled names [.withWord .pushVar id] := spelled_withId rfl hid
  have hstore : Spelled names [.withWord .popVar id] := spelled_withId rfl hid
  simp only [assignLayout]
  split
  · exact spelled_append.mpr ⟨h, hstore⟩
  · exact spelled_fromValue (spelled_append.mpr ⟨h, spelled_cons.mpr ⟨hstore, hload⟩⟩)

/-- Freeing names the variables that go. -/
theorem spelled_freeCode {freed : List Id} (h : ∀ id ∈ freed, Knows names id) :
    Spelled names (freeCode freed) := by
  intro i hi
  obtain ⟨id, hid, rfl⟩ := List.mem_map.mp hi
  have hfree : Spelled names [.withWord .free id] := spelled_withId rfl (h id hid)
  exact hfree _ List.mem_cons_self

theorem spelled_leaveLayout {returnType : VarType} {result : Code} {freed : List Id}
    (hresult : Spelled names result) (hfreed : ∀ id ∈ freed, Knows names id) :
    Spelled names (leaveLayout returnType result freed) := by
  refine spelled_append.mpr ⟨spelled_append.mpr ⟨spelled_append.mpr
    ⟨hresult, spelled_freeCode hfreed⟩, ?_⟩, spelled_plain _⟩
  split
  · exact spelled_literalCode _
  · exact spelled_nil

theorem spelled_branchLayout {test body tail : Code} (htest : Spelled names test)
    (hbody : Spelled names body) (htail : Spelled names tail) :
    Spelled names (branchLayout test body tail) := by
  simp only [branchLayout, spelled_append]
  refine ⟨⟨⟨⟨⟨spelled_cons.mpr ⟨spelled_plain _, htest⟩, spelled_jumpInstr (.inr rfl)⟩,
    spelled_jumpInstr (.inl rfl)⟩, hbody⟩, ?_⟩, htail⟩
  split
  · exact spelled_nil
  · exact spelled_jumpInstr (.inl rfl)

theorem spelled_loopLayout (kind : LoopKind) {inner test : Code} (hinner : Spelled names inner)
    (htest : Spelled names test) : Spelled names (loopLayout kind inner test) := by
  simp only [loopLayout, spelled_append]
  refine ⟨⟨⟨spelled_cons.mpr ⟨spelled_plain _, ?_⟩, hinner⟩,
    spelled_cons.mpr ⟨spelled_plain _, htest⟩, spelled_jumpInstr (.inr rfl)⟩, spelled_plain _⟩
  split
  · exact spelled_nil
  · exact spelled_jumpInstr (.inl rfl)

end

/-- The names of all variables that can be seen are known. -/
structure KnownScope (u : Tables) (Γ : List Symbol) : Prop where
  visible : ∀ symbol ∈ Γ, Knows u.names symbol.id
  global : ∀ name symbol, u.globals.get? name = some symbol → Knows u.names symbol.id

section

variable {u : Tables} {Γ Δ : List Symbol}

theorem KnownScope.resolves (h : KnownScope u Γ) {name : Text} {symbol : Symbol}
    (hresolves : Resolves u Γ name symbol) : Knows u.names symbol.id := by
  cases hresolves with
  | visible hfind => exact h.visible symbol (List.mem_reverse.mp (List.mem_of_find?_eq_some hfind))
  | global _ hget => exact h.global name symbol hget

theorem KnownScope.ids (h : KnownScope u Γ) : ∀ id ∈ (ids Γ).reverse, Knows u.names id := by
  intro id hid
  obtain ⟨symbol, hsymbol, rfl⟩ := List.mem_map.mp (List.mem_reverse.mp hid)
  exact h.visible symbol hsymbol

theorem KnownScope.right (h : KnownScope u (Γ ++ Δ)) : KnownScope u Δ :=
  ⟨fun symbol hsymbol => h.visible symbol (List.mem_append_right Γ hsymbol), h.global⟩

theorem KnownScope.snoc {symbol : Symbol} (h : KnownScope u Γ) (hid : Knows u.names symbol.id) :
    KnownScope u (Γ ++ [symbol]) :=
  ⟨List.forall_mem_append.mpr ⟨h.visible, List.forall_mem_singleton.mpr hid⟩, h.global⟩

theorem spelled_exprCode {piece : ExprPiece} {code : Code} (h : ExprCode u Γ piece code)
    (hΓ : KnownScope u Γ) : Spelled u.names code := by
  induction h with
  | ident hresolves => exact spelled_fromValue (spelled_withId rfl (hΓ.resolves hresolves))
  | number | string | true_ | false_ | minusNumber =>
      exact spelled_fromValue (spelled_literalCode _)
  | null => exact spelled_fromValue (spelled_object (.inl rfl))
  | attached => exact spelled_fromValue (spelled_object (.inr rfl))
  | minus _ _ _ ih =>
      exact spelled_fromValue (spelled_append.mpr
        ⟨spelled_append.mpr ⟨spelled_literalCode _, ih⟩, spelled_plain _⟩)
  | tilde _ _ ih =>
      exact spelled_fromValue (spelled_append.mpr
        ⟨spelled_append.mpr ⟨ih, spelled_literalCode _⟩, spelled_plain _⟩)
  | bang _ _ ih => exact spelled_fromTruth (spelled_append.mpr ⟨ih, spelled_compareZero _⟩)
  | plus _ _ _ _ ih => exact spelled_fromValue ih
  | step hresolves => exact spelled_stepLayout (hΓ.resolves hresolves)
  | relation _ _ _ ihleft ihright =>
      exact spelled_fromTruth (spelled_append.mpr
        ⟨spelled_append.mpr ⟨ihleft, ihright⟩, spelled_compare _⟩)
  | connective _ _ _ _ ihleft ihright =>
      exact spelled_fromTruth (spelled_append.mpr ⟨spelled_append.mpr ⟨spelled_append.mpr
        ⟨ihleft, spelled_plain _⟩, ihright⟩, spelled_combine _⟩)
  | arithmetic _ _ _ _ _ ihleft ihright =>
      exact spelled_fromValue (spelled_append.mpr
        ⟨spelled_append.mpr ⟨ihleft, ihright⟩, spelled_plain _⟩)
  | assign _ hresolves _ ih => exact spelled_assignLayout (hΓ.resolves hresolves) ih
  | compound _ hresolves _ ih =>
      have hid := hΓ.resolves hresolves
      exact spelled_assignLayout hid (spelled_append.mpr
        ⟨spelled_cons.mpr ⟨spelled_withId rfl hid, ih⟩, spelled_plain _⟩)
  | object _ _ ih => exact spelled_fromValue (spelled_append.mpr ⟨ih, spelled_plain _⟩)
  | call _ _ _ hname _ ih =>
      have hid := Registered.knows hname
      exact spelled_fromValue (spelled_append.mpr ⟨ih, spelled_withId rfl hid⟩)
  | nil => exact spelled_nil
  | cons _ _ ihfirst ihmore => exact spelled_append.mpr ⟨ihfirst, ihmore⟩

theorem spelled_initCode {symbol : Symbol} {init? : Option Expr} {code : Code}
    (h : InitCode u Γ symbol init? code) (hΓ : KnownScope u Γ) (hid : Knows u.names symbol.id) :
    Spelled u.names code := by
  cases h with
  | none => exact spelled_nil
  | constant => exact spelled_set hid
  | value _ hcode =>
      exact spelled_append.mpr ⟨spelled_exprCode hcode hΓ, spelled_withId rfl hid⟩

theorem spelled_nextCode {kind : LoopKind} {step? : Option Expr} {code : Code}
    (h : NextCode u Γ kind step? code) (hΓ : KnownScope u Γ) : Spelled u.names code := by
  cases h with
  | none => exact spelled_nil
  | step _ hcode => exact spelled_exprCode hcode hΓ

/-- A constant result is held in a variable of its own, which has to be registered. -/
theorem spelled_returnCode {ctx : FunctionContext} {e? : Option Expr} {code : Code}
    (h : ReturnCode u ctx Γ e? code) (hΓ : KnownScope u Γ)
    (hresult : e?.any (·.isConstant) = true → Registered u.names (resultName ctx)) :
    Spelled u.names code := by
  cases h with
  | void => exact spelled_leaveLayout spelled_nil hΓ.ids
  | zero => exact spelled_leaveLayout (spelled_literalCode _) hΓ.ids
  | constant _ hconstant =>
      have hid := (hresult (by simpa using hconstant)).knows
      refine spelled_leaveLayout ?_ (List.forall_mem_cons.mpr ⟨hid, hΓ.ids⟩)
      exact spelled_cons.mpr ⟨spelled_allocate hid,
        spelled_cons.mpr ⟨spelled_set hid, spelled_withId rfl hid⟩⟩
  | value _ _ hcode => exact spelled_leaveLayout (spelled_exprCode hcode hΓ) hΓ.ids

end

/-! ## Statements and functions -/

theorem knows_localSymbol {names : Names} {function name : Text} {outer : List Symbol}
    {type : VarType} (h : Registered names (localName function (namesOf outer) name)) :
    Knows names (localSymbol function outer name type).id := by
  rw [← qualified_localSymbol function outer name type] at h
  exact h.knows

/-- The names behind the ids of the variables that a piece of a body makes. -/
def StmtPiece.localNames (function : Text) (outer inner : List Text) : StmtPiece → List Text
  | .one s => s.localNames function outer inner
  | .all body => Stmt.allLocalNames function outer inner body
  | .block body => Stmt.allLocalNames function (outer ++ inner) [] body
  | .otherwise rest => rest.localNames function outer inner
  | .start first => first.added.map (localName function outer)

/-- The code of statements whose variables are registered holds the ids of names only. -/
theorem spelled_stmtCode {u : Tables} {ctx : FunctionContext} {outer inner inner' : List Symbol}
    {piece : StmtPiece} {code : Code} (h : StmtCode u ctx outer inner piece inner' code) :
    AllRegistered u.names (piece.localNames ctx.name (namesOf outer) (namesOf inner)) →
    KnownScope u (outer ++ inner) → KnownScope u (outer ++ inner') ∧ Spelled u.names code := by
  -- the scope grows along the way and every id that the code mentions is one of its names
  induction h with
  | @declare outer inner d symbol code hsymbol _ _ hinit =>
      intro hlocals hΓ
      simp only [StmtPiece.localNames, Stmt.localNames, allRegistered_singleton] at hlocals
      -- the qualified name of the new variable is registered with its id
      have hid : Knows u.names symbol.id := hsymbol ▸ knows_localSymbol hlocals
      have hΓ' : KnownScope u (outer ++ (inner ++ [symbol])) := by simpa using hΓ.snoc hid
      exact ⟨hΓ', spelled_cons.mpr ⟨spelled_allocate hid, spelled_initCode hinit hΓ' hid⟩⟩
  | return_ hreturn =>
      intro hlocals hΓ
      refine ⟨hΓ, spelled_returnCode hreturn hΓ fun hconstant => ?_⟩
      simp only [StmtPiece.localNames, Stmt.localNames, hconstant, and_self, if_true,
        allRegistered_singleton] at hlocals
      exact hlocals
  | truth hcode => exact fun _ hΓ => ⟨hΓ, spelled_exprCode hcode hΓ⟩
  | effect _ _ hcode => exact fun _ hΓ => ⟨hΓ, spelled_exprCode hcode hΓ⟩
  | nothing => exact fun _ hΓ => ⟨hΓ, spelled_nil⟩
  | ifElse htest _ _ _ ihbody ihrest =>
      intro hlocals hΓ
      simp only [StmtPiece.localNames, Stmt.localNames, allRegistered_append] at hlocals
      have hchain := spelled_branchLayout (spelled_exprCode htest hΓ) (ihbody hlocals.1 hΓ).2
        (ihrest hlocals.2 hΓ).2
      exact ⟨hΓ, spelled_append.mpr ⟨spelled_cons.mpr ⟨spelled_plain _, hchain⟩, spelled_plain _⟩⟩
  | @loop outer inner started name t kind condition? step? start body prologue code next test
      hstart _ hnext htest _ ihstart ihbody =>
      intro hlocals hΓ
      simp only [StmtPiece.localNames, Stmt.localNames, allRegistered_append] at hlocals
      -- body, step and condition see the variable that the loop starts with
      have hstarted : namesOf started = start.added := by
        simpa [StmtPiece.added] using namesOf_stmtCode hstart
      obtain ⟨hΓ', hprologue⟩ := ihstart (by simpa [StmtPiece.localNames] using hlocals.1)
        (by simpa using hΓ)
      have hbody := (ihbody (by simpa [StmtPiece.localNames, hstarted] using hlocals.2) hΓ').2
      have hinner := spelled_append.mpr ⟨hbody, spelled_nextCode hnext hΓ'⟩
      have hloop := spelled_loopLayout kind hinner (spelled_exprCode htest hΓ')
      exact ⟨hΓ, spelled_append.mpr
        ⟨spelled_append.mpr ⟨hprologue, hloop⟩, spelled_freeCode hΓ'.right.ids⟩⟩
  | nil => exact fun _ hΓ => ⟨hΓ, spelled_nil⟩
  | cons hfirst _ ihfirst ihmore =>
      intro hlocals hΓ
      simp only [StmtPiece.localNames, Stmt.allLocalNames, allRegistered_append] at hlocals
      obtain ⟨hΓ₁, hfirstCode⟩ := ihfirst hlocals.1 hΓ
      have hnames := namesOf_stmtCode hfirst
      simp only [StmtPiece.added] at hnames
      -- what the first statement declares is what the rest of the list sees
      rw [← hnames] at hlocals
      obtain ⟨hΓ₂, hmoreCode⟩ := ihmore hlocals.2 hΓ₁
      exact ⟨hΓ₂, spelled_append.mpr ⟨hfirstCode, hmoreCode⟩⟩
  | block _ _ ih =>
      intro hlocals hΓ
      obtain ⟨hΓ', hcode⟩ := ih (by simpa [StmtPiece.localNames] using hlocals) (by simpa using hΓ)
      exact ⟨hΓ, spelled_append.mpr ⟨hcode, spelled_freeCode hΓ'.right.ids⟩⟩
  | leaving _ _ ih =>
      intro hlocals hΓ
      exact ⟨hΓ, (ih (by simpa [StmtPiece.localNames] using hlocals) (by simpa using hΓ)).2⟩
  | otherwiseNone => exact fun _ hΓ => ⟨hΓ, spelled_nil⟩
  | otherwise _ ih =>
      intro hlocals hΓ
      exact ih (by simpa only [StmtPiece.localNames, Alternatives.localNames] using hlocals) hΓ
  | elseIf htest _ _ _ ihbody ihrest =>
      intro hlocals hΓ
      simp only [StmtPiece.localNames, Alternatives.localNames, allRegistered_append] at hlocals
      exact ⟨hΓ, spelled_branchLayout (spelled_exprCode htest hΓ) (ihbody hlocals.1 hΓ).2
        (ihrest hlocals.2 hΓ).2⟩
  | startNothing => exact fun _ hΓ => ⟨hΓ, spelled_nil⟩
  | startDeclare _ ih =>
      intro hlocals hΓ
      exact ih (by simpa [StmtPiece.localNames, Stmt.localNames, LoopStart.added] using hlocals) hΓ
  | startEvaluate hcode => exact fun _ hΓ => ⟨hΓ, spelled_exprCode hcode hΓ⟩

theorem knows_paramSymbols {u : Tables} {function : Text} {before : List Symbol}
    {params : List Param} {symbols : List Symbol}
    (h : ParamSymbols function before params symbols)
    (hnames : AllRegistered u.names (params.map (localName function [] ·.name))) :
    ∀ symbol ∈ symbols, Knows u.names symbol.id := by
  induction h with
  | nil => simp
  | @cons before p rest symbol more hsymbol _ _ _ ih =>
      simp only [AllRegistered, List.map_cons, List.forall_mem_cons] at hnames
      exact List.forall_mem_cons.mpr ⟨hsymbol ▸ knows_localSymbol hnames.1, ih hnames.2⟩

theorem spelled_prologue {names : Names} {symbols : List Symbol}
    (h : ∀ symbol ∈ symbols, Knows names symbol.id) : Spelled names (prologue symbols) := by
  intro i hi
  obtain ⟨symbol, hsymbol, hi⟩ := List.mem_flatMap.mp hi
  have hid := h symbol (List.mem_reverse.mp hsymbol)
  exact spelled_cons.mpr ⟨spelled_allocate hid, spelled_withId rfl hid⟩ i hi

/-- Every id in the code of a function is that of a name, if its own names are registered. -/
theorem spelled_functionCode {u : Tables} {f : FuncDecl} {body : List Stmt} {code : Code}
    (h : FunctionCode u f body code) (hu : KnownScope u [])
    (hnames : AllRegistered u.names (f.bodyNames body)) : Spelled u.names code := by
  simp only [FuncDecl.bodyNames, allRegistered_append] at hnames
  obtain ⟨⟨hparams, hlocals⟩, -⟩ := hnames
  have hscope {params : List Symbol} (hsymbols : ParamSymbols f.name [] f.params params) :
      KnownScope u ([] ++ params) :=
    ⟨knows_paramSymbols hsymbols hparams, hu.global⟩
  have hbody {params inner : List Symbol} {code : Code}
      (hsymbols : ParamSymbols f.name [] f.params params)
      (hcode : StmtCode u ⟨f.name, f.returnType⟩ [] params (.all body) inner code) :
      KnownScope u ([] ++ inner) ∧ Spelled u.names code := by
    refine spelled_stmtCode hcode ?_ (hscope hsymbols)
    simpa only [StmtPiece.localNames, namesOf_paramSymbols hsymbols, List.map_nil] using hlocals
  cases h with
  | falling _ hsymbols hcode hexit =>
      -- the return behind the body has no result, so it makes no variable
      obtain ⟨hΓ, hspelled⟩ := hbody hsymbols hcode
      have hleave := spelled_returnCode hexit hΓ (by simp)
      exact spelled_append.mpr ⟨spelled_append.mpr
        ⟨spelled_prologue (hscope hsymbols).visible, hspelled⟩, hleave⟩
  | returning _ hsymbols hcode =>
      exact spelled_append.mpr
        ⟨spelled_prologue (hscope hsymbols).visible, (hbody hsymbols hcode).2⟩

/-- The variables of a unit are known. -/
theorem Generated.knownScope {u : Tables} {program : List Decl} {found : List Section}
    (h : Generated u program found) : KnownScope u [] := by
  refine ⟨by simp, fun name symbol hget => ?_⟩
  obtain ⟨d, hd, -, rfl⟩ := h.declared.variableDeclared name symbol hget
  obtain ⟨decl, hmem, hid, hname⟩ : ∃ decl ∈ program, decl.id = d.id ∧ decl.name = d.name := by
    cases hd with
    | field hd => exact ⟨_, hd, rfl, rfl⟩
    | var hd => exact ⟨_, hd, rfl, rfl⟩
  refine ⟨d.name, ?_, ?_⟩
  · have hget := h.declared.names decl hmem
    rwa [hid, hname] at hget
  · have hproper := id_of_proper (h.proper decl hmem)
    rw [hid, hname] at hproper
    exact hproper.symm

/-- The code of a function section holds no ids but those of names. -/
theorem Generated.operands {u : Tables} {program : List Decl} {found : List Section}
    (h : Generated u program found) (hnames : AllRegistered u.names (unitNames program))
    {s : Section} (hs : s ∈ found) (hkind : s.kind = .function) : ∃ stored code,
      FunctionBody.ofPayload s.data = .ok stored ∧ stored.code = Instr.encodeAll code
        ∧ (stored.code.length < 2 ^ 63 → Decodes stored.code 0 (Instr.listing 0 code))
        ∧ Spelled u.names code := by
  obtain ⟨f, body, code, hmem, hbody, hcode, rfl⟩ := h.sections.function hs hkind
  have hreturns := returns_functionCode hcode h.nonnegative (h.proper _ hmem).returnType
  refine ⟨storedFunction f code, code, rfl, rfl, fun hlong => (hreturns.wellFormedCode hlong).decodes,
    spelled_functionCode hcode h.knownScope fun name hname => hnames name ?_⟩
  refine List.mem_flatMap.mpr ⟨.function f, hmem, List.mem_cons_of_mem _ ?_⟩
  simpa [Decl.bodyNames, hbody] using hname

end Gen

end TickScript
