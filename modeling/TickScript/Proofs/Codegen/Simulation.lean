import TickScript.Proofs.Codegen.Follows

/-!
# Statements and functions follow their evaluation

A statement ends in one of two ways: the machine stands behind its code, or it stands before the
return of the call with the value on the stack. Blocks, branches and loops are put together from
that. A loop is followed for as many turns as its evaluation may take, and each turn costs the
machine a step; the same holds for calls, which are followed by induction on their depth.

`Ends` is the condition behind statements. Its two cases are why blocks, branches and loops need no
knowledge of the code behind them: a returned value ends whatever construct the statement stands in,
and only the freeing of variables has to be accounted for, since a return frees everything in scope
at once (`follows_leaveLayout`).

The stack of compare values is saved around loops and calls. A statement may therefore assume any
saved values and must leave them as they were, which is stated by leaving them general in `At`.
-/

namespace TickScript

namespace Gen

open Machine

/-- Nothing is said about locals. -/
abbrev anyLocals : LocalsRel := fun _ _ => True

/-- A machine is about to return a value from its innermost call. -/
def Leaving (s : Scene) (armed : Bool) (v : Value) (σ : Store) (m : Machine) : Prop :=
  ∃ offset cvs, At s anyLocals armed [v] cvs offset σ m
    ∧ Placed s.call.function.code offset [.plain .ret]
    ∧ s.call.function.result v = v.convert s.call.function.returnType

/-- How statements leave a machine. -/
def Ends (s : Scene) (Γ : List Symbol) (armed : Bool) (cvs : List Bool) :
    Eval.Flow → Nat → Store → Machine → Prop
  | .next => At s (Bound Γ) armed [] cvs
  | .returned v => fun _ => Leaving s armed v

variable {u : Tables} {s : Scene} {n : Nat} {Γ : List Symbol} {armed : Bool} {vs : List Value}
  {cvs : List Bool} {L : LocalsRel}

/-- Code that does something leads the machine to its end, if the machine is not stopped on the way.
-/
theorem Does.leads {code : Code} {pre post : Nat → Store → Machine → Prop} {offset : Nat}
    {σ : Store} {m : Machine} (h : Does s n code pre post)
    (hcode : Placed s.call.function.code offset code) (hpre : pre offset σ m) :
    Leads (post (offset + Instr.sizeAll code) σ) m :=
  h offset σ m hcode hpre

/-- Statements follow one another unless the first one returns. -/
theorem Follows.andThen {a b : Code} {x y : Eval Eval.Flow} {Γ' : List Symbol}
    {pre : Nat → Store → Machine → Prop} (ha : Follows s n a pre x (Ends s Γ armed cvs))
    (hb : Follows s n b (At s (Bound Γ) armed [] cvs) y (Ends s Γ' armed cvs)) :
    Follows s n (a ++ b) pre (Eval.andThen x y) (Ends s Γ' armed cvs) := by
  refine ha.bind fun flow => ?_
  cases flow with
  | next => exact hb
  | returned v =>
      -- nothing of the second part is carried out
      exact fun offset σ m _ h => Simulates.pure h

/-! ## Freeing variables -/

/-- The variables of a block are forgotten, the latest first. -/
theorem follows_freeCode (Δ : List Symbol) :
    Follows s n (freeCode (ids Δ).reverse) (At s (Bound (Γ ++ Δ)) armed vs cvs)
      (modify fun σ => { σ with locals := σ.locals.drop Δ.length })
      fun _ => At s (Bound Γ) armed vs cvs := by
  induction Δ using List.reverseRecOn with
  | nil =>
      intro offset σ m _ h
      rw [List.append_nil] at h
      exact Leads.here h
  | append_singleton Δ symbol ih =>
      have hfree : freeCode (ids (Δ ++ [symbol])).reverse
          = .withWord .free symbol.id :: freeCode (ids Δ).reverse := by
        simp [freeCode, ids]
      have hforget : (modify fun σ : Store =>
            { σ with locals := σ.locals.drop (Δ ++ [symbol]).length } : Eval PUnit)
          = (modify fun σ => { σ with locals := σ.locals.drop 1 }) >>= fun _ =>
            modify fun σ => { σ with locals := σ.locals.drop Δ.length } := by
        funext σ
        simp
      rw [hfree, hforget, ← List.append_assoc]
      exact follows_free.cons fun _ => ih

/-- Freeing loses track of the locals, which is all that matters in front of a return. -/
theorem does_free {id : Id} :
    Does s n [.withWord .free id] (At s L armed vs cvs) (At s anyLocals armed vs cvs) := by
  refine .instr fun offset σ m h _ hnext => ⟨_, step_free hnext, Simulates.pure ?_⟩
  have hpast := h.past (.withWord .free id)
  obtain ⟨locals, hframes, -⟩ := hpast.frames
  simp only [Machine.free, mapFrame, hframes]
  exact ⟨hpast.toAgrees.of_eq rfl rfl rfl rfl rfl rfl hpast.armed, ⟨_, rfl, trivial⟩, hpast.stack,
    hpast.known, hpast.saved⟩

/-- Freeing any number of variables does as well. -/
theorem does_freeCode (freed : List Id) :
    Does s n (freeCode freed) (At s anyLocals armed vs cvs) (At s anyLocals armed vs cvs) := by
  induction freed with
  | nil => exact .nil fun _ _ _ h => h
  | cons id freed ih => exact Follows.prepend (a := [_]) does_free ih

/-! ## Returns -/

/-- A local of the innermost call has a value. -/
abbrev Local (id : Id) (v : Value) : LocalsRel := fun _ locals => locals.get? id = some v

/-- The variable for results is allocated with the zero of its type. -/
theorem does_allocate {size : UInt64} {type : VarType} {id : Id} :
    Does s n [.allocate size type id] (At s L armed vs cvs)
      (At s (Local id (.zero type)) armed vs cvs) := by
  refine .instr fun offset σ m h _ hnext => ⟨_, step_allocate hnext, Simulates.pure ?_⟩
  have hpast := h.past (.allocate size type id)
  obtain ⟨locals, hframes, -⟩ := hpast.frames
  simp only [Machine.allocate, mapFrame, hframes]
  exact ⟨hpast.toAgrees.of_eq rfl rfl rfl rfl rfl rfl hpast.armed,
    ⟨_, rfl, Table.get?_set_self _ _ _⟩, hpast.stack, hpast.known, hpast.saved⟩

/-- A local whose value is known is read as that value. -/
theorem At.lookup_local {id : Id} {v : Value} {offset : Nat} {σ : Store} {m : Machine}
    (h : At s (Local id v) armed vs cvs offset σ m) :
    m.lookup? id = some v ∧ m.locals.has id = true := by
  obtain ⟨locals, hframes, hget⟩ := h.frames
  have hlocals : m.locals = locals := by simp [Machine.locals, hframes, Activation.frame]
  rw [Machine.lookup?, hlocals, Table.has_iff]
  exact ⟨by simp [hget], v, hget⟩

/-- Bytes that are set go into the variable as they are. -/
theorem does_set {id : Id} {data : Text} {old : Value} :
    Does s n [.set id data] (At s (Local id old) armed vs cvs)
      (At s (Local id ⟨old.type, data⟩) armed vs cvs) := by
  refine .instr fun offset σ m h _ hnext => ⟨_, step_set hnext h.lookup_local.1, Simulates.pure ?_⟩
  have hpast := h.past (.set id data)
  have hhas := hpast.lookup_local.2
  obtain ⟨locals, hframes, -⟩ := hpast.frames
  simp only [Machine.assign, hhas, if_true, mapFrame, hframes]
  exact ⟨hpast.toAgrees.of_eq rfl rfl rfl rfl rfl rfl hpast.armed,
    ⟨_, rfl, Table.get?_set_self _ _ _⟩, hpast.stack, hpast.known, hpast.saved⟩

/-- The value of a local comes onto the stack. -/
theorem does_pushLocal {id : Id} {v : Value} (hnonneg : 0 ≤ id.toInt)
    (hv : v.type.isKnown = true) :
    Does s n [.withWord .pushVar id] (At s (Local id v) armed vs cvs)
      (At s (Local id v) armed (vs ++ [v]) cvs) := by
  have hnull : id ≠ Name.nullObject := by
    rintro rfl
    exact absurd hnonneg (by decide)
  have hattached : id ≠ Name.attachedObject := by
    rintro rfl
    exact absurd hnonneg (by decide)
  exact .instr fun _ _ _ h _ hnext =>
    ⟨_, step_pushVar hnext hnull hattached h.lookup_local.1, Simulates.pure ((h.past _).push hv)⟩

/-- Code that ends at the return of a call. -/
theorem Follows.leave {front : Code} {x : Eval Value} {pre : Nat → Store → Machine → Prop}
    {Γ' : List Symbol}
    (h : Follows s n front pre x fun v offset σ m => At s anyLocals armed [v] cvs offset σ m
      ∧ s.call.function.result v = v.convert s.call.function.returnType) :
    Follows s n (front ++ [.plain .ret]) pre (Eval.Flow.returned <$> x) (Ends s Γ' armed cvs) := by
  intro offset σ m hcode hpre
  rw [← bind_pure_comp]
  refine (h offset σ m hcode.left hpre).bind fun v σ' m' hm' => Simulates.pure ?_
  exact (⟨_, cvs, hm'.1, hcode.right, hm'.2⟩ : Leaving s armed v σ' m')

/-- Leaving a function evaluates the result, frees what is alive and stands before the return. -/
theorem follows_leaveLayout {returnType : VarType} {result : Code} {freed : List Id}
    {x : Eval Value} {pre : Nat → Store → Machine → Prop} {Γ' : List Symbol}
    (htype : s.call.function.returnType = returnType) (hvoid : returnType ≠ .void)
    (h : Follows s n result pre x fun v => At s L armed [v] cvs) :
    Follows s n (leaveLayout returnType result freed) pre (Eval.Flow.returned <$> x)
      (Ends s Γ' armed cvs) := by
  have hresult (v : Value) : s.call.function.result v = v.convert s.call.function.returnType := by
    rw [FunctionBody.result, if_neg (htype ▸ hvoid)]
  unfold leaveLayout
  rw [if_neg hvoid, List.append_nil]
  refine Follows.leave (Follows.imp (h.append fun v => ?_) fun v _ _ _ h => ⟨h, hresult v⟩)
  exact (does_freeCode freed).weaken fun _ _ _ h => h.loosen fun _ _ => trivial

/-- A return follows the evaluation of its result. -/
theorem follows_returnCode {call : Text → List Value → Eval Value} {ctx : FunctionContext}
    {e? : Option Expr} {code : Code} {Γ' : List Symbol} (h : ReturnCode u ctx Γ e? code)
    (hΓ : Nonnegative u Γ) (hu : Named u s.names)
    (hcalls : FollowsCalls u s.names s.program n call)
    (htype : s.call.function.returnType = ctx.returnType)
    (hknown : ctx.returnType.isKnown = true) :
    Follows s n code (At s (Bound Γ) armed [] cvs)
      (Eval.Flow.returned <$> Eval.result call ctx.returnType e?) (Ends s Γ' armed cvs) := by
  cases h with
  -- a function without a result returns void, which its type takes as it is
  | void hvoid =>
      have hresult : s.call.function.result .void
          = Value.void.convert s.call.function.returnType := by
        rw [FunctionBody.result, htype, hvoid, if_pos rfl]
        exact (Value.convert_of_type rfl).symm
      have hpushed : Does s n (freeCode (ids Γ).reverse ++ literalCode .void)
          (At s (Bound Γ) armed [] cvs) (At s anyLocals armed [.void] cvs) :=
        Follows.prepend ((does_freeCode _).weaken fun _ _ _ h => h.loosen fun _ _ => trivial)
          (does_literal rfl)
      have hzero : Follows s n (freeCode (ids Γ).reverse ++ literalCode .void)
          (At s (Bound Γ) armed [] cvs) (pure .void) fun v offset σ m =>
            At s anyLocals armed [v] cvs offset σ m
              ∧ s.call.function.result v = v.convert s.call.function.returnType :=
        fun offset σ m hcode hm => (hpushed.leads hcode hm).trans fun _ h => .here ⟨h, hresult⟩
      rw [hvoid]
      exact hzero.leave
  -- a return without a value gives the zero of the type
  | zero hvoid =>
      exact follows_leaveLayout htype hvoid
        (follows_constant (Value.fills_zero ⟨hknown, hvoid⟩).known)
  -- a literal is written into a variable made for it, which is then read back
  | @constant e v hvoid hconstant hliteral =>
      have hv := Expr.fills_literal ⟨hknown, hvoid⟩ hliteral
      have heval : Eval.result call ctx.returnType (some e) = pure v := by
        simp only [Eval.result, hconstant, if_true, Eval.literal, hliteral]
      rw [heval]
      have hstored : Does s n
          [.allocate (UInt64.ofNat v.data.length) ctx.returnType (Name.id (resultName ctx)),
            .set (Name.id (resultName ctx)) v.data, .withWord .pushVar (Name.id (resultName ctx))]
          (At s (Bound Γ) armed [] cvs) (At s (Local (Name.id (resultName ctx)) v) armed [v] cvs) := by
        -- the variable has the type of the literal, so setting its data makes it the literal
        have hdata : (⟨(Value.zero ctx.returnType).type, v.data⟩ : Value) = v := by
          rw [(Value.fills_zero ⟨hknown, hvoid⟩).type, ← hv.type]
        refine Follows.prepend (a := [_]) does_allocate (Follows.prepend (a := [_]) does_set ?_)
        rw [hdata]
        exact does_pushLocal (Name.id_nonneg _) hv.known
      have hconst : Follows s n _ (At s (Bound Γ) armed [] cvs) (pure v) fun v' =>
          At s (Local (Name.id (resultName ctx)) v) armed [v'] cvs := hstored.const
      exact follows_leaveLayout htype hvoid hconst
  -- any other value is computed by the code of its expression
  | value hvoid hconstant hcode =>
      have heval (e : Expr) (h : e.isConstant = false) :
          Eval.result call ctx.returnType (some e) = Eval.expr call e := by
        simp only [Eval.result, h, Bool.false_eq_true, if_false]
      rw [heval _ hconstant]
      exact follows_leaveLayout htype hvoid (follows_exprCode hcode hΓ hu hcalls armed [] cvs)

/-! ## Declarations and blocks -/

/-- The variable that was declared last is the one that its name resolves to. -/
theorem resolves_declared {symbol : Symbol} : Resolves u (Γ ++ [symbol]) symbol.name symbol :=
  .visible (by simp)

/-- A declaration follows its evaluation. -/
theorem follows_declare {call : Text → List Value → Eval Value} {d : VarDecl} {symbol : Symbol}
    {code : Code} (hname : symbol.name = d.name) (htype : symbol.type = d.type)
    (hstorable : d.type.Storable) (hfresh : symbol.id ∉ ids Γ)
    (hinit : InitCode u (Γ ++ [symbol]) symbol d.initial? code)
    (hΓ : Nonnegative u (Γ ++ [symbol])) (hu : Named u s.names)
    (hcalls : FollowsCalls u s.names s.program n call) :
    Follows s n (.allocate (storageSize d.type d.initial?) d.type symbol.id :: code)
      (At s (Bound Γ) armed [] cvs) (Eval.declare call d)
      fun _ => At s (Bound (Γ ++ [symbol])) armed [] cvs := by
  unfold Eval.declare
  rw [← hname]
  refine (follows_allocate hfresh hstorable).cons fun _ => ?_
  generalize d.initial? = initial? at hinit
  cases hinit with
  | none => exact .nil fun _ _ _ h => h.1
  | @constant init v hconstant hliteral =>
      rw [htype] at hliteral
      have hv := Expr.fills_literal hstorable hliteral
      simp only [hconstant, if_true, Eval.literal, hliteral, pure_bind]
      refine (follows_set hu resolves_declared).weaken fun offset σ m h => ⟨h.1, ?_⟩
      rw [hv.type]
      exact h.2
  | @value init code hconstant hcode =>
      simp only [hconstant, Bool.false_eq_true, if_false]
      refine Follows.weaken (?_ : Follows s n _ (At s (Bound (Γ ++ [symbol])) armed [] cvs) _ _)
        fun _ _ _ h => h.1
      exact (follows_exprCode hcode hΓ hu hcalls armed [] cvs).bind fun _ =>
        follows_popVar hu resolves_declared

/-- The store at the start of a block tells how many variables stay. -/
theorem block_eq (body : Eval Eval.Flow) (σ : Store) :
    Eval.block body σ = (body >>= fun flow => do
      modify fun σ' => { σ' with locals := σ'.locals.drop (σ'.locals.length - σ.locals.length) }
      return flow) σ := by
  simp only [Eval.block, Eval.run_bind, Eval.run_get]

/-- Only the locals of a store have changed. -/
theorem Leaving.relocal {v : Value} {σ : Store} {m : Machine} (h : Leaving s armed v σ m)
    (locals : List (Text × Value)) : Leaving s armed v { σ with locals } m := by
  obtain ⟨offset, cvs, hat, hplaced, hresult⟩ := h
  obtain ⟨locals', hframes, -⟩ := hat.frames
  exact ⟨offset, cvs, ⟨⟨hat.program, hat.running, hat.alive, hat.globals, hat.present, hat.host,
    hat.attached, hat.armed⟩, ⟨locals', hframes, trivial⟩, hat.stack, hat.known, hat.saved⟩, hplaced,
    hresult⟩

/-- A block forgets its variables, whichever way it ends. -/
theorem follows_block {body : Eval Eval.Flow} {code : Code} {Δ : List Symbol}
    (h : Follows s n code (At s (Bound Γ) armed [] cvs) body (Ends s (Γ ++ Δ) armed cvs)) :
    Follows s n (code ++ freeCode (ids Δ).reverse) (At s (Bound Γ) armed [] cvs) (Eval.block body)
      (Ends s Γ armed cvs) := by
  intro offset σ m hcode hm
  obtain ⟨locals, -, hbound⟩ := hm.frames
  have hdepth := hbound.length_eq
  rw [block_eq]
  refine (h offset σ m hcode.left hm).bind fun flow σ' m' hends => ?_
  cases flow with
  | returned v => exact Leads.here (Leaving.relocal hends _)
  | next =>
      have hat : At s (Bound (Γ ++ Δ)) armed [] cvs (offset + Instr.sizeAll code) σ' m' := hends
      obtain ⟨locals', -, hbound'⟩ := hat.frames
      have hlength : σ'.locals.length - σ.locals.length = Δ.length := by
        rw [hbound'.length_eq, hdepth, List.length_append]
        omega
      have hfreed := follows_freeCode (n := n) Δ _ σ' m' hcode.right hat
      rw [Eval.run_modify] at hfreed
      simp only [Eval.run_bind, Eval.run_modify, Eval.run_pure, hlength]
      rw [Instr.sizeAll_append, ← Nat.add_assoc]
      exact hfreed

/-- A block that ends in a return has nothing to forget. -/
theorem follows_block_returned {body : Eval Eval.Flow} {code : Code} {Γ' : List Symbol}
    (h : Follows s n code (At s (Bound Γ) armed [] cvs) body (Ends s Γ' armed cvs))
    (hreturns : ∀ σ σ', body σ ≠ .ok .next σ') :
    Follows s n code (At s (Bound Γ) armed [] cvs) (Eval.block body) (Ends s Γ armed cvs) := by
  intro offset σ m hcode hm
  rw [block_eq]
  have hends : Simulates n m (body σ) fun flow σ' m' =>
      ∃ v, flow = .returned v ∧ Leaving s armed v σ' m' := by
    refine (h offset σ m hcode hm).imp fun flow σ' m' heq hflow => ?_
    cases flow with
    | next => exact absurd heq (hreturns σ σ')
    | returned v => exact ⟨v, rfl, hflow⟩
  refine hends.bind fun flow σ' m' hflow => ?_
  obtain ⟨v, rfl, hleaving⟩ := hflow
  exact Leads.here (hleaving.relocal _)

/-! ## Branches -/

/-- A jump within reach leads to its target with nothing else changed. -/
theorem leads_jumpBy {distance : Int} {target offset : Nat} {σ : Store} {m : Machine}
    (h : At s L armed vs cvs offset σ m)
    (hcode : Placed s.call.function.code offset [jumpInstr .jumpBy distance])
    (hreach : Reachable distance) (htarget : (offset : Int) + 3 + distance = target) :
    Leads (At s L armed vs cvs target σ) m := by
  refine Leads.of_steps (h.steps hcode fun t _ hnext => ?_)
  refine ⟨_, step_jumpBy hreach.1 hreach.2 hnext, .here ?_⟩
  rw [htarget]
  exact (h.retick t).goto target

/-- A conditional jump that is armed goes where the compare value says. -/
theorem leads_jumpIfBy {distance : Int} {target offset : Nat} {cv : Bool} {σ : Store} {m : Machine}
    (h : Compared s L true vs cvs cv offset σ m)
    (hcode : Placed s.call.function.code offset [jumpInstr .jumpIfBy distance])
    (hreach : Reachable distance) (htarget : (offset : Int) + 3 + distance = target) :
    Leads (At s L armed vs cvs (if cv then target else offset + 3) σ) m := by
  refine Leads.of_steps (h.steps hcode fun t _ hnext => ?_)
  refine ⟨_, step_jumpIfBy hreach.1 hreach.2 hnext, .here ?_⟩
  have hflag : (m.retick t).compareFlag = true := h.armed rfl
  have hvalue : (m.retick t).compareValue = cv := h.compare
  rw [hflag, hvalue, htarget, Bool.true_and]
  cases cv with
  | true => exact ((h.retick t).goto target).disarm
  | false => exact ((h.retick t).goto (offset + 3)).disarm

/-- The test decides between body and tail, and both ends meet behind the layout. -/
theorem follows_branchLayout {test body tail : Code} {x : Eval Value} {y z : Eval Eval.Flow}
    (htest : Follows s n test (At s (Bound Γ) true [] cvs) x (Yields s (Bound Γ) true [] cvs .truth))
    (hbody : Follows s n body (At s (Bound Γ) armed [] cvs) y (Ends s Γ armed cvs))
    (htail : Follows s n tail (At s (Bound Γ) armed [] cvs) z (Ends s Γ armed cvs))
    (hfits : BranchFits body tail) :
    Follows s n (branchLayout test body tail) (At s (Bound Γ) armed [] cvs)
      (do if (← x).truth then y else z) (Ends s Γ armed cvs) := by
  intro offset σ m hcode h
  obtain ⟨start, rest, places⟩ := branchPlaces hcode
  have hstart := places.start_eq
  have hrest := places.rest_eq
  rw [places.size]
  -- the flag, then the condition, then the jump on its truth
  refine Simulates.of_steps ((steps_setFlag h places.flag).imp fun m' hm' => ?_)
  refine (htest _ σ m' places.condition hm').bind fun v σ' m'' hm'' => ?_
  have hjump : Leads (At s (Bound Γ) armed [] cvs
      (if v.truth then start else offset + 1 + Instr.sizeAll test + 3) σ') m'' :=
    leads_jumpIfBy hm'' places.enter ⟨by decide, by decide⟩ (by rw [relativeJumpSize]; omega)
  refine Simulates.of_leads hjump fun now hnow => ?_
  cases htruth : v.truth with
  | false =>
      simp only [htruth, Bool.false_eq_true, if_false] at hnow
      -- the condition is false: the body is jumped over
      have hskip : Leads (At s (Bound Γ) armed [] cvs rest σ') now :=
        leads_jumpBy hnow places.skip hfits.skip (by omega)
      exact Simulates.of_leads hskip fun later hlater => htail rest σ' later places.otherwise hlater
  | true =>
      simp only [htruth, if_true] at hnow ⊢
      rw [← bind_pure y]
      refine (hbody start σ' now places.inner hnow).bind fun flow σ'' later hends => ?_
      cases flow with
      | returned v => exact Simulates.pure hends
      | next =>
          have hat : At s (Bound Γ) armed [] cvs (start + Instr.sizeAll body) σ'' later := hends
          -- the jump over the tail is left out where there is no tail
          cases hempty : tail.isEmpty with
          | true =>
              have hskip : skipSize body tail = Instr.sizeAll body := by simp [skipSize, hempty]
              have hsize : Instr.sizeAll tail = 0 := by simp [List.isEmpty_iff.mp hempty, Instr.sizeAll]
              rw [hrest, hskip, hsize]
              exact Simulates.pure hat
          | false =>
              have hskip : skipSize body tail = Instr.sizeAll body + 3 := by
                simp [skipSize, hempty, relativeJumpSize]
              have hexit : Leads (At s (Bound Γ) armed [] cvs (rest + Instr.sizeAll tail) σ'') later :=
                leads_jumpBy hat (places.exit hempty) (hfits.exit hempty) (by omega)
              exact hexit

/-! ## Saved compare values -/

/-- The compare value is saved, whatever it is. -/
theorem leads_saveCompare {offset : Nat} {σ : Store} {m : Machine}
    (h : At s L armed vs cvs offset σ m)
    (hcode : Placed s.call.function.code offset [.plain .saveCompare]) :
    Leads (At s L armed vs (m.compareValue :: cvs) (offset + 1) σ) m :=
  Does.leads (n := 0) does_saveCompare hcode ⟨h, rfl⟩

/-- The compare value is restored behind statements, unless they return. -/
theorem simulates_restored (cv : Bool) {x : Eval Eval.Flow} {offset : Nat} {σ : Store} {m : Machine}
    (h : Simulates n m (x σ) fun flow => Ends s Γ armed (cv :: cvs) flow offset)
    (hcode : Placed s.call.function.code offset [.plain .restoreCompare]) :
    Simulates n m (x σ) fun flow => Ends s Γ armed cvs flow (offset + 1) := by
  rw [← bind_pure x]
  refine h.bind fun flow σ' m' hends => ?_
  cases flow with
  | returned v => exact Simulates.pure hends
  | next => exact Does.leads (n := n) does_restoreCompare hcode hends

/-- Statements between a save of the compare value and its restoration. -/
theorem follows_saved {code : Code} {x : Eval Eval.Flow}
    (h : ∀ cv, Follows s n code (At s (Bound Γ) armed [] (cv :: cvs)) x
      (Ends s Γ armed (cv :: cvs))) :
    Follows s n (.plain .saveCompare :: code ++ [.plain .restoreCompare])
      (At s (Bound Γ) armed [] cvs) x (Ends s Γ armed cvs) := by
  intro offset σ m hcode hm
  have hsave : (Instr.plain .saveCompare).size = 1 := rfl
  have hrestore : (Instr.plain .restoreCompare).size = 1 := rfl
  have hbehind := hcode.right
  simp only [Instr.sizeAll, hsave] at hbehind
  have hsize : offset + Instr.sizeAll (.plain .saveCompare :: code ++ [.plain .restoreCompare])
      = offset + (1 + Instr.sizeAll code) + 1 := by
    simp only [Instr.sizeAll_append, Instr.sizeAll, hsave, hrestore]
    omega
  rw [hsize]
  refine Simulates.of_leads (leads_saveCompare hm hcode.left.head) fun m' hm' => ?_
  refine simulates_restored m.compareValue ?_ hbehind
  rw [← Nat.add_assoc]
  exact h m.compareValue (offset + 1) σ m' hcode.left.tail hm'

/-! ## Loops -/

/-- The turns of a loop, from its test on. Each turn begins with a step of the machine, so that a loop
with no turns left to evaluate has taken its steps. -/
theorem simulates_turns {inner test : Code} {x : Eval Value} {turn : Eval Eval.Flow}
    {offset start again : Nat} {kind : LoopKind}
    (places : LoopPlaces s.call.function.code offset kind inner test start again)
    (htest : Follows s n test (At s (Bound Γ) true [] cvs) x (Yields s (Bound Γ) true [] cvs .truth))
    (hturn : Follows s n inner (At s (Bound Γ) armed [] cvs) turn (Ends s Γ armed cvs))
    (hfits : LoopFits kind inner test) (k : Nat) (hk : k ≤ n) {σ : Store} {m : Machine}
    (h : At s (Bound Γ) armed [] cvs again σ m) :
    Simulates k m (Eval.turns (Value.truth <$> x) turn k σ) fun flow =>
      Ends s Γ armed cvs flow (again + 1 + Instr.sizeAll test + 3) := by
  have hagain := places.again_eq
  -- the induction is on the turns that are left; the flag that arms the test is the step that each
  -- turn costs
  induction k generalizing σ m with
  | zero => exact trivial
  | succ k ih =>
      refine Simulates.of_step_succ ((steps_setFlag h places.flag).imp fun m' hm' => ?_)
      have hk' : k ≤ n := by omega
      have heval : Eval.turns (Value.truth <$> x) turn (k + 1) = x >>= fun v =>
          if v.truth then Eval.andThen turn (Eval.turns (Value.truth <$> x) turn k)
          else pure .next := by
        simp only [Eval.turns, bind_map_left]
      rw [heval]
      refine ((htest _ σ m' places.condition hm').mono hk').bind fun v σ' m'' hm'' => ?_
      -- the jump behind the test goes back to the body, or on to the end of the loop
      have hjump : Leads (At s (Bound Γ) armed [] cvs
          (if v.truth then start else again + 1 + Instr.sizeAll test + 3) σ') m'' :=
        leads_jumpIfBy hm'' places.back hfits.back
          (by simp only [backDistance, relativeJumpSize]; omega)
      refine Simulates.of_leads hjump fun now hnow => ?_
      cases htruth : v.truth with
      -- the test fails: the loop is over and the machine stands behind it
      | false =>
          simp only [htruth, Bool.false_eq_true, if_false] at hnow ⊢
          exact Simulates.pure hnow
      | true =>
          simp only [htruth, if_true] at hnow ⊢
          refine ((hturn start σ' now places.inside hnow).mono hk').bind
            fun flow σ'' later hends => ?_
          cases flow with
          -- a return inside of the body ends the loop too
          | returned v => exact Simulates.pure hends
          | next =>
              rw [← hagain] at hends
              exact ih hk' hends

/-- A loop is followed for as many turns as its evaluation takes; the induction is on the fuel of that
evaluation. -/
theorem follows_loopLayout {kind : LoopKind} {inner test : Code} {x : Eval Value}
    {turn : Eval Eval.Flow}
    (htest : ∀ cvs, Follows s n test (At s (Bound Γ) true [] cvs) x
      (Yields s (Bound Γ) true [] cvs .truth))
    (hturn : ∀ cvs, Follows s n inner (At s (Bound Γ) armed [] cvs) turn (Ends s Γ armed cvs))
    (hfits : LoopFits kind inner test) :
    Follows s n (loopLayout kind inner test) (At s (Bound Γ) armed [] cvs)
      (if kind = .doWhile then Eval.andThen turn (Eval.turns (Value.truth <$> x) turn n)
        else Eval.turns (Value.truth <$> x) turn n)
      (Ends s Γ armed cvs) := by
  intro offset σ m hcode h
  obtain ⟨start, again, places⟩ := loopPlaces hcode
  have hstart := places.start_eq
  have hagain := places.again_eq
  rw [places.size]
  -- the compare value is saved in front and restored behind, so the turns may change it
  refine Simulates.of_leads (leads_saveCompare h places.save) fun m' hm' => ?_
  refine simulates_restored m.compareValue ?_ places.restore
  have hturns {σ : Store} {now : Machine} := simulates_turns (σ := σ) (m := now) places
    (htest (m.compareValue :: cvs)) (hturn (m.compareValue :: cvs)) hfits n le_rfl
  by_cases hkind : kind = .doWhile
  · -- a `do` loop enters at the body
    rw [if_pos hkind] at hstart ⊢
    refine (hturn _ start σ m' places.inside (hstart ▸ hm')).bind fun flow σ' m'' hends => ?_
    cases flow with
    | returned v => exact Simulates.pure hends
    | next =>
        rw [← hagain] at hends
        exact hturns hends
  · -- any other loop jumps to the test first
    rw [if_neg hkind] at hstart ⊢
    have hforward : Leads (At s (Bound Γ) armed [] (m.compareValue :: cvs) again σ) m' :=
      leads_jumpBy hm' (places.forward hkind) (hfits.forward hkind) (by omega)
    exact Simulates.of_leads hforward fun m'' hm'' => hturns hm''

/-! ## Statements -/

/-- What a piece of a body means. -/
def StmtPiece.eval (call : Text → List Value → Eval Value) (limit : Nat) (returnType : VarType) :
    StmtPiece → Eval Eval.Flow
  | .one s => Eval.stmt call limit returnType s
  | .all body => Eval.stmts call limit returnType body
  | .block body => Eval.block (Eval.stmts call limit returnType body)
  | .otherwise rest => Eval.alternatives call limit returnType rest
  | .start first => do
    Eval.start call first
    return .next

section

variable (call : Text → List Value → Eval Value) (limit : Nat) (returnType : VarType)

theorem stmt_return (name : Text) (t : Token) (e? : Option Expr) :
    Eval.stmt call limit returnType (.expr name t .return_ e?)
      = Eval.Flow.returned <$> Eval.result call returnType e? := by
  simp only [Eval.stmt, bind_pure_comp]

theorem stmt_effect (name : Text) (t : Token) {kind : ExprKind} (hkind : kind ≠ .return_) (e : Expr) :
    Eval.stmt call limit returnType (.expr name t kind (some e))
      = (fun _ => Eval.Flow.next) <$> Eval.expr call e := by
  cases kind <;> first | contradiction | simp only [Eval.stmt, bind_pure_comp]

theorem stmt_nothing (name : Text) (t : Token) {kind : ExprKind} (hkind : kind ≠ .return_) :
    Eval.stmt call limit returnType (.expr name t kind none) = pure .next := by
  cases kind <;> first | contradiction | simp only [Eval.stmt]

/-- A condition that is missing counts as one that is true. -/
theorem condition_eq (t : Token) (condition? : Option Expr) :
    Eval.condition call condition?
      = Value.truth <$> Eval.expr call (condition?.getD (alwaysTrue t)) := by
  cases condition? with
  | none => simp [Eval.condition, alwaysTrue, Eval.expr, Eval.word, Value.truth_ofBool]
  | some e => simp [Eval.condition, bind_pure_comp]

/-- A loop is a block that starts with its declaration and then takes its turns. -/
theorem stmt_loop (name : Text) (t : Token) (kind : LoopKind) (condition? step? : Option Expr)
    (start : LoopStart) (body : List Stmt) :
    Eval.stmt call limit returnType (.loop name t kind condition? step? start body)
      = Eval.block (Eval.andThen (StmtPiece.eval call limit returnType (.start start))
        (let turn := Eval.andThen (StmtPiece.eval call limit returnType (.block body))
          (Eval.next call kind step?)
        let test := Value.truth <$> Eval.expr call (condition?.getD (alwaysTrue t))
        if kind = .doWhile then Eval.andThen turn (Eval.turns test turn limit)
        else Eval.turns test turn limit)) := by
  rw [← condition_eq]
  simp only [Eval.stmt, StmtPiece.eval]
  congr 1
  simp only [Eval.andThen, bind_assoc, pure_bind]

end

/-- The step of a loop follows its evaluation. -/
theorem follows_nextCode {call : Text → List Value → Eval Value} {kind : LoopKind}
    {step? : Option Expr} {code : Code} (h : NextCode u Γ kind step? code) (hΓ : Nonnegative u Γ)
    (hu : Named u s.names) (hcalls : FollowsCalls u s.names s.program n call) :
    Follows s n code (At s (Bound Γ) armed [] cvs) (Eval.next call kind step?)
      (Ends s Γ armed cvs) := by
  cases h with
  | none hnone =>
      have heval : Eval.next call kind step? = pure .next := by
        rcases hnone with rfl | rfl
        · cases step? <;> simp [Eval.next]
        · rfl
      rw [heval]
      exact .nil fun _ _ _ h => h
  | @step e code hkind hcode =>
      have heval : Eval.next call kind (some e) = (fun _ => Eval.Flow.next) <$> Eval.expr call e := by
        simp [Eval.next, hkind, bind_pure_comp]
      rw [heval]
      exact (follows_exprCode hcode hΓ hu hcalls armed [] cvs).map fun _ _ _ _ h => h

/-- Only a return leaves the function by itself. -/
theorem isReturn_of_leaves {s : Stmt} (h : (StmtPiece.one s).leaves = true) :
    ∃ name t e?, s = .expr name t .return_ e? := by
  unfold StmtPiece.leaves at h
  split at h
  · next name t e? heq =>
      obtain rfl := StmtPiece.one.inj heq
      exact ⟨name, t, e?, rfl⟩
  · next heq => cases heq
  · cases h

/-- Statements that end in a return do not go on. -/
theorem stmts_ne_next {call : Text → List Value → Eval Value} {limit : Nat} {returnType : VarType}
    {body : List Stmt} (h : endsWithReturn body = true) (σ σ' : Store) :
    Eval.stmts call limit returnType body σ ≠ .ok .next σ' := by
  induction body generalizing σ with
  | nil => cases h
  | cons s rest ih =>
      simp only [Eval.stmts, Eval.andThen, Eval.run_bind]
      rcases endsWithReturn_cons h with ⟨rfl, hlast⟩ | hlast
      · obtain ⟨name, t, e?, rfl⟩ := isReturn_of_leaves hlast
        rw [stmt_return, Eval.run_map]
        cases Eval.result call returnType e? σ <;> simp
      · cases Eval.stmt call limit returnType s σ with
        | error e σ' => simp
        | ok flow σ'' =>
            cases flow with
            | next => exact ih hlast σ''
            | returned v => simp

/-- Statements follow their evaluation. -/
theorem follows_stmtCode {call : Text → List Value → Eval Value} {ctx : FunctionContext}
    {outer inner inner' : List Symbol} {piece : StmtPiece} {code : Code}
    (h : StmtCode u ctx outer inner piece inner' code) (hu : Named u s.names)
    (hcalls : FollowsCalls u s.names s.program n call)
    (htype : s.call.function.returnType = ctx.returnType) (hknown : ctx.returnType.isKnown = true)
    (hΓ : Nonnegative u (outer ++ inner)) (armed : Bool) (cvs : List Bool) :
    Follows s n code (At s (Bound (outer ++ inner)) armed [] cvs) (piece.eval call n ctx.returnType)
      (Ends s (outer ++ inner') armed cvs) := by
  -- the flag and the saved comparisons differ from place to place: a chain of branches has one more
  -- comparison saved, a test has the flag set
  induction h generalizing armed cvs with
  | @declare outer inner d symbol code hsymbol hstorable hfresh hinit =>
      have hid : 0 ≤ symbol.id.toInt := by
        rw [hsymbol]
        exact Name.id_nonneg _
      rw [← List.append_assoc] at hinit ⊢
      simp only [StmtPiece.eval, Eval.stmt, bind_pure_comp]
      exact (follows_declare (by rw [hsymbol]; rfl) (by rw [hsymbol]; rfl) hstorable hfresh hinit
        (hΓ.snoc hid) hu hcalls).map fun _ _ _ _ h => h
  | return_ hreturn =>
      simp only [StmtPiece.eval, stmt_return]
      exact follows_returnCode hreturn hΓ hu hcalls htype hknown
  | truth hcode =>
      simp only [StmtPiece.eval]
      rw [stmt_effect _ _ _ _ _ (by decide)]
      exact (follows_exprCode hcode hΓ hu hcalls armed [] cvs).map fun _ _ _ _ h => h.toAt
  | effect hreturn _ hcode =>
      simp only [StmtPiece.eval]
      rw [stmt_effect _ _ _ _ _ hreturn]
      exact (follows_exprCode hcode hΓ hu hcalls armed [] cvs).map fun _ _ _ _ h => h
  | nothing hreturn =>
      simp only [StmtPiece.eval]
      rw [stmt_nothing _ _ _ _ _ hreturn]
      exact .nil fun _ _ _ h => h
  | @ifElse outer inner name t condition body rest test code tail htest _ _ hfits ihbody ihrest =>
      simp only [StmtPiece.eval, Eval.stmt]
      exact follows_saved fun cv => follows_branchLayout
        (follows_exprCode htest hΓ hu hcalls true [] (cv :: cvs)) (ihbody hΓ armed (cv :: cvs))
        (ihrest hΓ armed (cv :: cvs)) hfits
  | @loop outer inner started name t kind condition? step? start body prologue code next test hstart
      _ hnext htest hfits ihstart ihbody =>
      have hΓ₁ : Nonnegative u (outer ++ inner ++ started) :=
        (sound_stmtCode hstart hknown (by simpa using hΓ)).1
      -- the start runs in the block of the loop, and its variable is alive in every turn
      have hprologue := ihstart (by simpa using hΓ) armed cvs
      rw [List.append_nil] at hprologue
      -- one turn is the body and the step behind it
      have hloop : Follows s n (loopLayout kind (code ++ next) test)
          (At s (Bound (outer ++ inner ++ started)) armed [] cvs) _
          (Ends s (outer ++ inner ++ started) armed cvs) := follows_loopLayout
        (fun cvs => follows_exprCode htest hΓ₁ hu hcalls true [] cvs)
        (fun cvs => (ihbody hΓ₁ armed cvs).andThen (follows_nextCode hnext hΓ₁ hu hcalls)) hfits
      have heval : StmtPiece.eval call n ctx.returnType
            (.one (.loop name t kind condition? step? start body))
          = Eval.block (Eval.andThen (StmtPiece.eval call n ctx.returnType (.start start)) _) :=
        stmt_loop call n ctx.returnType name t kind condition? step? start body
      rw [heval]
      exact follows_block (hprologue.andThen hloop)
  | nil => exact .nil fun _ _ _ h => h
  | cons hfirst hmore ihfirst ihmore =>
      have hΓ' := (sound_stmtCode hfirst hknown hΓ).1
      exact (ihfirst hΓ armed cvs).andThen (ihmore hΓ' armed cvs)
  | @block outer inner dropped body code _ hbody ih =>
      have hcode := ih (by simpa using hΓ) armed cvs
      rw [List.append_nil] at hcode
      exact follows_block hcode
  | leaving hends hbody ih =>
      have hcode := ih (by simpa using hΓ) armed cvs
      rw [List.append_nil] at hcode
      -- a body that ends in a return has no freeing code, so its end must not be reached
      exact follows_block_returned hcode (stmts_ne_next hends)
  | otherwiseNone => exact .nil fun _ _ _ h => h
  | otherwise _ ih => exact ih hΓ armed cvs
  | elseIf htest hbody hrest hfits ihbody ihrest =>
      exact follows_branchLayout (follows_exprCode htest hΓ hu hcalls true [] cvs)
        (ihbody hΓ armed cvs) (ihrest hΓ armed cvs) hfits
  | startNothing => exact .nil fun _ _ _ h => h
  | startDeclare _ ih => exact ih hΓ armed cvs
  | startEvaluate hcode =>
      simp only [StmtPiece.eval, Eval.start, bind_pure_comp]
      refine Follows.map ?_ fun _ _ _ _ h => h
      exact (follows_exprCode hcode hΓ hu hcalls armed [] cvs).map fun _ _ _ _ h => h

end Gen

end TickScript
