import TickScript.Proofs.Codegen.Simulation

/-!
# Calls follow their evaluation

A call starts with its arguments on the stack. The prologue turns them into variables, the body is
followed statement by statement, and the return hands the value over to the caller. The calls that a
body makes are followed by induction on the depth that the evaluation may reach: every call takes a
step of the machine.

The induction in `Complete.followsCalls` is on the number of steps that are left. A call takes at
least one step, so when its body is followed, the calls inside it have fewer steps left and the
hypothesis applies to them; nothing has to be known about the depth of the recursion of the program.

What a unit must satisfy for this is `Complete`: its functions are the ones that are loaded, each of
them has the code of its body, and every function that is called has a body. Calls of natives are
therefore outside of this module; what natives may do is the matter of `Proofs.Machine.Objects` and
`Proofs.Session`.
-/

namespace TickScript

namespace Gen

open Machine

variable {u : Tables} {s : Scene} {n : Nat} {armed : Bool} {cvs : List Bool}

/-! ## Parameters -/

/-- The locals of a call that has taken its last parameters from the stack. -/
structure Taken (back : List Symbol) (entries : List (Text × Value)) (locals : Table Id Value) :
    Prop where
  found : List.Forall₂ (Holding locals) back entries
  absent : ∀ id, id ∉ ids back → locals.get? id = none

/-- Before the prologue nothing has been taken. -/
theorem Taken.nil : Taken [] [] [] := ⟨.nil, fun _ _ => rfl⟩

/-- Taking a parameter hides nothing that was taken before it. -/
theorem Taken.set {back : List Symbol} {entries : List (Text × Value)} {locals : Table Id Value}
    {p : Symbol} {v w : Value} (h : Taken back entries locals) (hid : p.id ∉ ids back)
    (hv : v.type.isKnown = true) :
    Taken (p :: back) ((p.name, v) :: entries) ((locals.set p.id w).set p.id v) := by
  refine ⟨.cons ⟨rfl, Table.get?_set_self _ _ _, hv⟩ (holding_congr h.found fun id hmem => ?_),
    fun id hmem => ?_⟩
  · have hne : id ≠ p.id := fun heq => hid (heq ▸ hmem)
    rw [Table.get?_set, if_neg hne, Table.get?_set, if_neg hne]
  · simp only [ids, List.map_cons, List.mem_cons, not_or] at hmem
    rw [Table.get?_set, if_neg hmem.1, Table.get?_set, if_neg hmem.1, h.absent id hmem.2]

/-- Once all parameters are taken they are the variables of the body. -/
theorem Taken.bound {params : List Symbol} {entries : List (Text × Value)} {locals : Table Id Value}
    (h : Taken params entries locals) (hdistinct : (ids params).Nodup) :
    Bound params entries.reverse locals :=
  ⟨hdistinct, List.forall₂_reverse_iff.mpr h.found, h.absent⟩

/-- A parameter is created and takes the argument on top of the stack. -/
theorem does_takeParam {p : Symbol} {back : List Symbol} {entries : List (Text × Value)} {v : Value}
    {vs : List Value} (hid : p.id ∉ ids back) (htype : p.type.Storable) :
    Does s n [.allocate (storageSize p.type none) p.type p.id, .withWord .popVar p.id]
      (At s (fun _ => Taken back entries) armed (vs ++ [v]) cvs)
      (At s (fun _ => Taken (p :: back) ((p.name, v.convert p.type) :: entries)) armed vs cvs) := by
  -- the variable is there first, with the zero of its type
  have hallocate : Does s n [.allocate (storageSize p.type none) p.type p.id]
      (At s (fun _ => Taken back entries) armed (vs ++ [v]) cvs)
      (At s (fun _ locals => ∃ before, Taken back entries before
        ∧ locals = before.set p.id (.zero p.type)) armed (vs ++ [v]) cvs) := by
    refine .instr fun offset σ m h _ hnext => ⟨_, step_allocate hnext, Simulates.pure ?_⟩
    have hpast := h.past (.allocate (storageSize p.type none) p.type p.id)
    obtain ⟨locals, hframes, htaken⟩ := hpast.frames
    simp only [Machine.allocate, mapFrame, hframes]
    exact ⟨hpast.toAgrees.of_eq rfl rfl rfl rfl rfl rfl hpast.armed, ⟨_, rfl, _, htaken, rfl⟩,
      hpast.stack, hpast.known, hpast.saved⟩
  refine Follows.prepend (a := [_]) hallocate (.instr fun offset σ m h hlimit hnext => ?_)
  have hpop := h.pop? hlimit hnext (by simp [Instr.withWord])
  have hzero := Value.fills_zero htype
  have hlookup : m.lookup? p.id = some (.zero p.type) := by
    obtain ⟨_, hframes, before, -, rfl⟩ := h.frames
    simp [Machine.lookup?, Machine.locals, hframes, Activation.frame, Table.get?_set_self]
  refine ⟨_, step_popVar hnext hpop hlookup, Simulates.pure ?_⟩
  have hpast := (h.past (.withWord .popVar p.id)).shrink (w := vs) (by simp)
  obtain ⟨_, hframes, before, htaken, rfl⟩ := hpast.frames
  -- the value on top then takes the place of the zero, converted to the type
  have hhas : Table.has (before.set p.id (.zero p.type)) p.id = true :=
    (Table.has_iff _ _).mpr ⟨_, Table.get?_set_self _ _ _⟩
  have hknown : (v.convert p.type).type.isKnown = true := by
    rw [Value.type_convert htype.known]
    exact htype.known
  simp only at hframes
  simp only [Machine.assign, Machine.locals, hframes, List.head?_cons, Option.map_some,
    Option.getD_some, Activation.frame, hhas, if_true, mapFrame, hzero.type]
  exact ⟨hpast.toAgrees.of_eq rfl rfl rfl rfl rfl rfl hpast.armed,
    ⟨_, rfl, htaken.set hid hknown⟩, rfl, hpast.known, hpast.saved⟩

/-- Parameters and the values that they take. -/
def paramEntries (params : List Symbol) (values : List Value) : List (Text × Value) :=
  List.zipWith (fun p v => (p.name, v.convert p.type)) params values

theorem does_takeParams {taken back : List Symbol} {entries : List (Text × Value)}
    {values : List Value} (hlength : values.length = taken.length)
    (hdistinct : (ids (taken.reverse ++ back)).Nodup) (htypes : ∀ p ∈ taken, p.type.Storable) :
    Does s n (taken.flatMap fun p =>
        [.allocate (storageSize p.type none) p.type p.id, .withWord .popVar p.id])
      (At s (fun _ => Taken back entries) armed values.reverse cvs)
      (At s (fun _ => Taken (taken.reverse ++ back) ((paramEntries taken values).reverse ++ entries))
        armed [] cvs) := by
  induction taken generalizing back entries values with
  | nil =>
      obtain rfl := List.length_eq_zero_iff.mp hlength
      exact .nil fun _ _ _ h => h
  | cons p taken ih =>
      cases values with
      | nil => cases hlength
      | cons v values =>
          -- the last argument is on top of the stack, so the parameters are taken from the back
          rw [List.reverse_cons, List.append_assoc] at hdistinct
          have hid : p.id ∉ ids back := by
            simp only [ids, List.map_append] at hdistinct
            exact (List.nodup_cons.mp (List.nodup_append.mp hdistinct).2.1).1
          have hrest := @ih (p :: back) ((p.name, v.convert p.type) :: entries) values
            (by simpa using hlength) hdistinct
            fun q hq => htypes q (List.mem_cons_of_mem p hq)
          rw [List.flatMap_cons, List.reverse_cons]
          refine Follows.prepend (does_takeParam hid (htypes p (by simp))) ?_
          simpa [paramEntries] using hrest

/-- Parameters have ids of their own. -/
theorem ParamSymbols.distinct {function : Text} {before symbols : List Symbol} {params : List Param}
    (h : ParamSymbols function before params symbols) (hbefore : (ids before).Nodup) :
    (ids (before ++ symbols)).Nodup := by
  induction h with
  | nil => simpa using hbefore
  | @cons before p rest symbol more _ _ hfresh _ ih =>
      rw [← List.singleton_append, ← List.append_assoc]
      refine ih ?_
      rw [ids, List.map_append]
      exact List.nodup_append.mpr ⟨hbefore, by simp, by simpa using hfresh⟩

/-- Arguments are paired with the names of the parameters and converted to their types. -/
theorem ParamSymbols.zip_eq {function : Text} {before symbols : List Symbol} {params : List Param}
    (h : ParamSymbols function before params symbols) (args : List Value) :
    (params.zip args).map (fun (p, v) => (p.name, v.convert p.type)) = paramEntries symbols args := by
  induction h generalizing args with
  | nil => simp [paramEntries]
  | cons hsymbol _ _ _ ih =>
      cases args with
      | nil => simp [paramEntries]
      | cons v args =>
          have hrest := ih args
          simp only [paramEntries, List.zip_cons_cons, List.map_cons, List.zipWith_cons_cons,
            hsymbol, localSymbol] at hrest ⊢
          rw [hrest]

theorem ParamSymbols.entries {function : Text} {before symbols : List Symbol} {params : List Param}
    (h : ParamSymbols function before params symbols) (args : List Value) :
    Eval.parameters params args = (paramEntries symbols args).reverse := by
  rw [Eval.parameters, h.zip_eq]

/-- The prologue turns the arguments into the variables that the evaluation starts with. -/
theorem leads_prologue {f : Text} {params : List Param} {symbols : List Symbol} {args : List Value}
    {offset : Nat} {σ : Store} {m : Machine} (hsymbols : ParamSymbols f [] params symbols)
    (hlength : args.length = params.length) (hlocals : σ.locals = Eval.parameters params args)
    (hcode : Placed s.call.function.code offset (prologue symbols))
    (h : At s (fun _ locals => locals = []) armed args cvs offset σ m) :
    Leads (At s (Bound symbols) armed [] cvs (offset + Instr.sizeAll (prologue symbols)) σ) m := by
  have hdistinct : (ids symbols).Nodup := hsymbols.distinct List.nodup_nil
  have hcount : args.length = symbols.length := hlength.trans hsymbols.length_eq.symm
  have htake := @does_takeParams s 0 armed cvs symbols.reverse [] [] args.reverse
    (by simpa using hcount) (by simpa using hdistinct)
    fun p hp => (paramSymbols_lawful hsymbols p (by simpa using hp)).1
  have hentries : (paramEntries symbols.reverse args.reverse).reverse = paramEntries symbols args := by
    rw [paramEntries, ← List.reverse_zipWith hcount.symm, List.reverse_reverse, paramEntries]
  rw [List.reverse_reverse, List.reverse_reverse, List.append_nil, List.append_nil, hentries]
    at htake
  refine (Does.leads htake hcode (h.loosen fun locals hnil => hnil ▸ Taken.nil)).trans
    fun m' hm' => .here (hm'.loosen fun locals htaken => ?_)
  rw [hlocals, hsymbols.entries args]
  exact htaken.bound hdistinct

/-! ## Bodies -/

/-- The flow of a whole body: one that reaches its end returns the zero of the type. -/
def bodyFlow (call : Text → List Value → Eval Value) (limit : Nat) (returnType : VarType)
    (body : List Stmt) : Eval Eval.Flow :=
  Eval.andThen (Eval.stmts call limit returnType body) (pure (.returned (.zero returnType)))

/-- The code of a function follows its body up to the return. -/
theorem simulates_functionCode {call : Text → List Value → Eval Value} {f : FuncDecl}
    {body : List Stmt} {code : Code} {args : List Value} {σ : Store} {m : Machine}
    (h : FunctionCode u f body code) (hfunction : s.call.function = storedFunction f code)
    (hu : Named u s.names) (hnonneg : Nonnegative u []) (hknown : f.returnType.isKnown = true)
    (hcalls : FollowsCalls u s.names s.program n call) (hlength : args.length = f.params.length)
    (hlocals : σ.locals = Eval.parameters f.params args)
    (hm : At s (fun _ locals => locals = []) armed args [] 0 σ m) :
    Simulates n m (bodyFlow call n f.returnType body σ) fun flow σ' m' =>
      ∃ v, flow = .returned v ∧ Leaving s armed v σ' m' := by
  have hcode : Placed s.call.function.code 0 code := by
    have hshort := s.short
    rw [hfunction] at hshort ⊢
    exact .whole ((returns_functionCode h hnonneg hknown).encodable hshort)
  have htype : s.call.function.returnType = f.returnType := by rw [hfunction]; rfl
  cases h with
  | @falling params inner front exit _ hsymbols hbody hexit =>
      have hΓ := paramSymbols_nonnegative hsymbols hnonneg
      have hΓ' := (sound_stmtCode hbody hknown hΓ).1
      refine Simulates.of_leads (leads_prologue hsymbols hlength hlocals hcode.left.left hm)
        fun m' hm' => ?_
      have hfront := follows_stmtCode hbody hu hcalls htype hknown hΓ armed []
      -- a body without a return at its end is left by the exit behind it
      have hleave : Follows s n exit (At s (Bound inner) armed [] []) _ (Ends s inner armed []) :=
        follows_returnCode hexit hΓ' hu hcalls htype hknown
      have hplaced : Placed s.call.function.code (0 + Instr.sizeAll (prologue params))
          (front ++ exit) := by
        rw [List.append_assoc] at hcode
        exact hcode.right
      refine ((hfront.andThen hleave) _ σ m' hplaced hm').imp fun flow σ' m'' heq hends => ?_
      cases flow with
      | returned v => exact ⟨v, rfl, hends⟩
      | next =>
          -- the flow that follows never goes on
          simp only [Eval.andThen, Eval.run_bind, Eval.result] at heq
          split at heq
          · split at heq <;> cases heq
          · cases heq
  | @returning params inner front hends hsymbols hbody =>
      have hΓ := paramSymbols_nonnegative hsymbols hnonneg
      refine Simulates.of_leads (leads_prologue hsymbols hlength hlocals hcode.left hm)
        fun m' hm' => ?_
      have hfront := follows_stmtCode hbody hu hcalls htype hknown hΓ armed []
      -- a body that ends in a return never comes to its end
      have hreturned : Simulates n m' (Eval.stmts call n f.returnType body σ) fun flow σ' m' =>
          ∃ v, flow = .returned v ∧ Leaving s armed v σ' m' := by
        refine (hfront _ σ m' hcode.right hm').imp fun flow σ' m'' heq hflow => ?_
        cases flow with
        | returned v => exact ⟨v, rfl, hflow⟩
        | next => exact absurd heq (stmts_ne_next hends σ σ')
      refine hreturned.bind fun flow σ' m'' hflow => ?_
      obtain ⟨v, rfl, hleaving⟩ := hflow
      exact Simulates.pure ⟨v, rfl, hleaving⟩

/-! ## Calls -/

/-- The function that is found under a name has the name and a body. -/
theorem bodyOf?_spec {program : List Decl} {name : Text} {f : FuncDecl} {body : List Stmt}
    (h : Eval.bodyOf? program name = some (f, body)) :
    .function f ∈ program ∧ f.name = name ∧ f.body? = some body := by
  obtain ⟨d, hd, hfound⟩ := List.exists_of_findSome?_eq_some h
  cases d with
  | field d => cases hfound
  | var d => cases hfound
  | function g =>
      simp only at hfound
      split at hfound
      · next hname =>
          obtain ⟨body', hbody, heq⟩ := Option.map_eq_some_iff.mp hfound
          obtain ⟨rfl, rfl⟩ := Prod.mk.inj heq
          exact ⟨hd, hname, hbody⟩
      · cases hfound

/-- A function with a body is found by its name, or another one that has its name and a body is. -/
theorem exists_bodyOf? {program : List Decl} {f : FuncDecl} {body : List Stmt}
    (hf : .function f ∈ program) (hbody : f.body? = some body) :
    ∃ g body', Eval.bodyOf? program f.name = some (g, body') := by
  cases hfind : Eval.bodyOf? program f.name with
  | some found => exact ⟨found.1, found.2, rfl⟩
  | none =>
      have hnone := List.findSome?_eq_none_iff.mp hfind _ hf
      simp [hbody] at hnone

theorem Value.type_zero {t : VarType} (h : t.isKnown = true) : (Value.zero t).type = t := by
  by_cases hvoid : t = .void
  · subst hvoid
    rfl
  · exact (Value.fills_zero ⟨h, hvoid⟩).type

/-- A call is its body, with the variables of the caller out of sight. -/
theorem function_eq {program : List Decl} {name : Text} {f : FuncDecl} {body : List Stmt}
    (hbody : Eval.bodyOf? program name = some (f, body)) (hknown : f.returnType.isKnown = true)
    (limit : Nat) (args : List Value) (σ : Store) :
    Eval.function program (limit + 1) name args σ
      = (bodyFlow (Eval.function program limit) limit f.returnType body >>= fun flow => do
          modify fun σ' => { σ' with locals := σ.locals }
          match flow with
          | .returned v => return v.convert f.returnType
          | .next => return .zero f.returnType)
        { σ with locals := Eval.parameters f.params args } := by
  have hzero : (Value.zero f.returnType).convert f.returnType = .zero f.returnType :=
    Value.convert_of_type (Value.type_zero hknown)
  simp only [Eval.function, hbody, bodyFlow, Eval.andThen, Eval.run_bind, Eval.run_get,
    Eval.run_modify]
  cases Eval.stmts (Eval.function program limit) limit f.returnType body
      { σ with locals := Eval.parameters f.params args } with
  | error e σ' => rfl
  | ok flow σ' =>
      cases flow with
      | returned v => rfl
      | next => simp [hzero]

/-- A machine enters a call with the arguments that lie on top of the stack. -/
theorem At.enter {caller : Scene} {L : LocalsRel} {vs args : List Value} {offset : Nat} {σ : Store}
    {m : Machine} (h : At caller L armed (vs ++ args) cvs offset σ m) (callee : Scene)
    (hnames : callee.names = caller.names) (hprogram : callee.program = caller.program)
    (hcallers : callee.call.callers = m.frames)
    (hbase : callee.call.base = OperandStack.pushAll vs caller.call.base)
    (hsaved : callee.call.saved = cvs ++ caller.call.saved) {depth : Nat}
    (hdepth : depth = m.savedCompares.length) (env : List (Text × Value)) :
    At callee (fun _ locals => locals = []) armed args [] 0 { σ with locals := env }
      { m with frames := ⟨callee.call.id, callee.call.function, 0, depth, []⟩ :: m.frames } := by
  have hagrees : Agrees callee armed { σ with locals := env } m :=
    ⟨h.program.trans hprogram.symm, h.running, h.alive, hnames ▸ h.globals, hnames ▸ h.present,
      h.host, h.attached, h.armed⟩
  refine ⟨hagrees.of_eq rfl rfl rfl rfl rfl rfl h.armed, ⟨[], ?_, rfl⟩, ?_,
    fun v hv => h.known v (by simp [hv]), ?_⟩
  · rw [hcallers, hdepth, h.saved, ← hsaved]
    rfl
  · rw [hbase, ← OperandStack.pushAll_append]
    exact h.stack
  · rw [hsaved]
    exact h.saved

/-- The return of a call that was made by another one. -/
theorem Leaving.leads_caller {v : Value} {σ : Store} {m : Machine} {Γ : List Symbol}
    {vs : List Value} {offset : Nat} {locals : Table Id Value} (h : Leaving s armed v σ m)
    (caller : Scene) (env : List (Text × Value))
    (htype : s.call.function.returnType.isKnown = true)
    (hnames : caller.names = s.names) (hprogram : caller.program = s.program)
    (hcallers : s.call.callers = caller.call.frame offset locals :: caller.call.callers)
    (hbase : s.call.base = OperandStack.pushAll vs caller.call.base)
    (hsaved : s.call.saved = cvs ++ caller.call.saved) (hvs : ∀ v ∈ vs, v.type.isKnown = true)
    (hlocals : Bound Γ env locals) :
    Leads (At caller (Bound Γ) armed (vs ++ [v.convert s.call.function.returnType]) cvs offset
      { σ with locals := env }) m := by
  obtain ⟨at_, saved, h, hcode, hresult⟩ := h
  refine Leads.of_steps (h.steps hcode fun t hlimit hnext => ?_)
  obtain ⟨inside, hframes, -⟩ := h.frames
  have hv : v.Poppable := (h.retick t).poppable hlimit hnext (by simp [Instr.plain]) v (by simp)
  refine ⟨_, step_ret hnext hframes (by simp [hcallers]) h.stack hv, .here ?_⟩
  -- what the callee saved of comparisons is dropped with its frame
  have hcut : m.savedCompares.drop (m.savedCompares.length - (s.call.frame at_ inside).cvDepth)
      = s.call.saved := by
    simp [h.saved, Activation.frame]
  have hknown : (v.convert s.call.function.returnType).type.isKnown = true := by
    rw [Value.type_convert htype]
    exact htype
  have hagrees : Agrees caller armed { σ with locals := env } m :=
    ⟨h.program.trans hprogram.symm, h.running, h.alive, hnames ▸ h.globals, hnames ▸ h.present,
      h.host, h.attached, h.armed⟩
  refine ⟨hagrees.of_eq rfl rfl rfl rfl rfl rfl h.armed, ⟨locals, hcallers, hlocals⟩, ?_,
    fun w hw => ?_, ?_⟩
  · -- the result lies on the arguments' place, on top of what the caller had there
    rw [OperandStack.pushAll_concat, ← hbase]
    exact congrArg (OperandStack.push · s.call.base) hresult
  · rcases List.mem_append.mp hw with hw | hw
    · exact hvs w hw
    · exact List.mem_singleton.mp hw ▸ hknown
  · exact hcut.trans hsaved

/-- What is known of a unit that is loaded and calls no function without a body. -/
structure Complete (u : Tables) (program : List Decl) (names : List Text) (p : Program) : Prop where
  /-- The unit was generated from the program. -/
  generated : ∃ found, Generated u program found
  /-- Its sections are loaded. -/
  holds : Holds u program p
  /-- The names of its globals have ids of their own. -/
  named : Named u names
  /-- No global has one of the two ids that the machine resolves itself. -/
  nonnegative : Nonnegative u []
  /-- All code is short enough to be addressed. -/
  addressable : ∀ id f, p.functions.get? id = some f → f.code.length < 2 ^ 63
  /-- Every function that is called has a body in the unit. -/
  bodies : ∀ name count, (name, count) ∈ callSites program →
    ∃ f, .function f ∈ program ∧ f.name = name ∧ f.body?.isSome = true

variable {program : List Decl} {names : List Text} {p : Program}

/-- The function of a name, with its code in the loaded program. -/
structure Entry (u : Tables) (program : List Decl) (p : Program) (name : Text) (f : FuncDecl)
    (body : List Stmt) (code : Code) : Prop where
  /-- The function is one of the unit. -/
  declared : .function f ∈ program
  /-- It is the one that an evaluation finds under the name. -/
  found : Eval.bodyOf? program name = some (f, body)
  /-- It is as the readers make it. -/
  proper : f.Proper
  /-- Its code is that of its body. -/
  compiled : FunctionCode u f body code
  /-- And this code is loaded under its id. -/
  stored : p.functions.get? (Name.id name) = some (storedFunction f code)
  /-- The code can be addressed. -/
  short : (storedFunction f code).code.length < 2 ^ 63

/-- Every function that a program defines has an entry in the loaded program. -/
theorem Complete.entry (h : Complete u program names p) {f : FuncDecl}
    (hf : .function f ∈ program) (hsome : f.body?.isSome = true) :
    ∃ g body code, Entry u program p f.name g body code := by
  obtain ⟨found, hunit⟩ := h.generated
  obtain ⟨body, hbody⟩ := Option.isSome_iff_exists.mp hsome
  obtain ⟨g, body', hfound⟩ := exists_bodyOf? hf hbody
  obtain ⟨hg, hname, hgbody⟩ := bodyOf?_spec hfound
  obtain ⟨code, hcode, hstored⟩ := h.holds.function g body' hg hgbody
  rw [show g.id = Name.id f.name by rw [← hname]; rfl] at hstored
  exact ⟨g, body', code, hg, hfound, hunit.proper _ hg, hcode, hstored,
    h.addressable _ _ hstored⟩

/-- The calls of a unit follow their evaluation at any depth. -/
theorem Complete.followsCalls (h : Complete u program names p) (n : Nat) :
    FollowsCalls u names p n (Eval.function program n) := by
  induction n with
  | zero =>
      -- an evaluation without fuel promises nothing
      intro s Γ armed vs args cvs name _ _ _ offset σ m _ _
      exact trivial
  | succ n ih =>
      intro s Γ armed vs args cvs name hnames hprogram hsite offset σ m hcode hm
      obtain ⟨found, hunit⟩ := h.generated
      obtain ⟨f₀, hf₀, hname₀, hsome⟩ := h.bodies name args.length (hunit.calls ▸ hsite.listed)
      obtain ⟨f, body, code, entry⟩ := hname₀ ▸ h.entry hf₀ hsome
      obtain ⟨hf, hname, hbody⟩ := bodyOf?_spec entry.found
      have hlength : args.length = f.params.length := by
        obtain ⟨g, hg, hsame⟩ := hunit.declared.functionKnown f hf
        obtain rfl := hsame (by simp [hbody])
        exact (hsite.arity g (hname ▸ hg)).symm
      obtain ⟨locals, hframes, hbound⟩ := hm.frames
      -- the scene of the callee: its frame on top of the caller's, over the values below the
      -- arguments
      let callee : Scene := ⟨s.names, s.program, ⟨Name.id name, storedFunction f code,
        s.call.frame (offset + (Instr.withWord .call (Name.id name)).size) locals :: s.call.callers,
        OperandStack.pushAll vs s.call.base, cvs ++ s.call.saved⟩, entry.short⟩
      rw [function_eq entry.found entry.proper.returnType]
      refine Simulates.of_step_succ (hm.steps hcode fun t _ hnext => ?_)
      have hget : (m.retick t).program.functions.get? (Name.id name)
          = some (storedFunction f code) := by
        rw [show (m.retick t).program = p from hm.program.trans hprogram]
        exact entry.stored
      refine ⟨_, step_call hnext hget, ?_⟩
      have hpast := (hm.retick t).past (.withWord .call (Name.id name))
      have hcallers : callee.call.callers
          = ((m.retick t).past offset (.withWord .call (Name.id name))).frames := by
        rw [past, goto_eq (m := m.retick t) hframes]
        rfl
      have hdepth : (m.retick t).savedCompares.length
          = ((m.retick t).past offset (.withWord .call (Name.id name))).savedCompares.length := by
        simp
      have hentered := hpast.enter callee rfl rfl hcallers rfl rfl hdepth
        (Eval.parameters f.params args)
      -- the call itself has taken a step, so the body is followed with less fuel
      refine (simulates_functionCode entry.compiled (s := callee) rfl (hnames ▸ h.named)
        h.nonnegative entry.proper.returnType (hnames ▸ hprogram ▸ ih) hlength rfl hentered).bind
          fun flow σ' m' hflow => ?_
      obtain ⟨v, rfl, hleaving⟩ := hflow
      exact hleaving.leads_caller s σ.locals entry.proper.returnType rfl rfl rfl rfl rfl
        (fun v hv => hm.known v (by simp [hv])) hbound

end Gen

end TickScript
