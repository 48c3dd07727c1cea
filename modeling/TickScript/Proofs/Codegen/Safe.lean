import TickScript.Proofs.Codegen.Placement
import TickScript.Proofs.Codegen.WellFormed
import TickScript.Proofs.Machine.Safe

/-!
# Generated code is safe

Code is typed by the shape that it finds and the shape that it leaves: `Typed` says that code is safe
at its start if what stands behind it is safe at its end. An expression leaves one more value, or
none; statements leave the stacks as they found them and may add locals; a return leaves the call
altogether, so it asks nothing of what stands behind it. A jump back is where the number of steps
counts: what it leads to only has to be safe for the steps that are left.

A shape counts the values on the two stacks and lists the locals that exist. `Typed` is stated for a
number of steps: code is safe for `n` steps in a shape, and for calls and for jumps back only fewer
steps are asked for. Weakening goes one way for locals: code that is safe with some locals is safe
with more of them (`Typed.weaken`), which is what makes the two ways into the end of a branch meet.

Natives enter through `SafeCalls` only, as functions that answer with a value of a known type; the
theorems of `Proofs.Session` say when the natives of a program are of this kind.
-/

namespace TickScript

namespace Gen

open Machine

/-- A call as generated code makes it. -/
structure CallSite (u : Tables) (name : Text) (count : Nat) : Prop where
  /-- The call is one of the unit. -/
  listed : (name, count) ∈ u.calls
  /-- A function of the unit is called with as many arguments as it has parameters. -/
  arity : ∀ f, u.functions.get? name = some f → f.params.length = count
  /-- The id of the callee stands for its name. -/
  named : u.names.get? (Name.id name) = some name

/-- Every call that code makes is safe: the function is one of the program that is safe for the
steps behind the call, or a native that takes as many arguments and answers with known values. -/
def SafeCalls (w : Setting) (u : Tables) (n : Nat) : Prop :=
  ∀ name count, CallSite u name count →
    (∃ function, w.program.functions.get? (Name.id name) = some function ∧ ∀ k < n,
      ∀ callee : Activation, callee.id = Name.id name → callee.function = function →
        Resumes w callee k → SafeAt w callee k 0 ⟨count, 0, []⟩)
    ∨ ∃ native, w.program.functions.get? (Name.id name) = none
      ∧ w.natives.get? (Name.id name) = some native ∧ native.arity = count
      ∧ ∀ call v, (native.reply call).answer = .done v → v.type.isKnown = true

/-- Calls that are safe for `n` steps are safe for fewer. -/
theorem SafeCalls.mono {w : Setting} {u : Tables} {n k : Nat} (h : SafeCalls w u n)
    (hk : k ≤ n) : SafeCalls w u k := by
  intro name count hcall
  rcases h name count hcall with ⟨function, hget, hsafe⟩ | hnative
  · exact .inl ⟨function, hget, fun j hj => hsafe j (by omega)⟩
  · exact .inr hnative

/-- Code that takes a call from one shape to another. -/
def Typed (w : Setting) (c : Activation) (u : Tables) (code : Code) (σ τ : Shape) : Prop :=
  ∀ n offset, Placed c.function.code offset code → SafeCalls w u n → Resumes w c n →
    SafeAt w c n (offset + Instr.sizeAll code) τ → SafeAt w c n offset σ

/-- Code that leaves the call, so that nothing has to stand behind it. -/
def Exits (w : Setting) (c : Activation) (u : Tables) (code : Code) (σ : Shape) : Prop :=
  ∀ n offset, Placed c.function.code offset code → SafeCalls w u n → Resumes w c n →
    SafeAt w c n offset σ

variable {w : Setting} {c : Activation} {u : Tables}

/-- No code leaves the shape that it finds. -/
theorem typed_nil {σ : Shape} : Typed w c u [] σ σ := fun _ _ _ _ _ h => h

/-- The shape that the first part leaves is the one that the second part finds. -/
theorem Typed.append {a b : Code} {σ τ υ : Shape} (ha : Typed w c u a σ τ)
    (hb : Typed w c u b τ υ) : Typed w c u (a ++ b) σ υ := by
  intro n offset hcode hcalls hresumes h
  refine ha n offset hcode.left hcalls hresumes (hb n _ hcode.right hcalls hresumes ?_)
  rwa [Instr.sizeAll_append, ← Nat.add_assoc] at h

theorem Typed.cons {i : Instr} {code : Code} {σ τ υ : Shape} (ha : Typed w c u [i] σ τ)
    (hb : Typed w c u code τ υ) : Typed w c u (i :: code) σ υ :=
  ha.append hb

/-- Code that never comes to its end has any shape there. -/
theorem Exits.typed {code : Code} {σ τ : Shape} (h : Exits w c u code σ) : Typed w c u code σ τ :=
  fun n offset hcode hcalls hresumes _ => h n offset hcode hcalls hresumes

/-- Code in front of a part that leaves leaves as well. -/
theorem Typed.exits {a b : Code} {σ τ : Shape} (ha : Typed w c u a σ τ) (hb : Exits w c u b τ) :
    Exits w c u (a ++ b) σ := fun n offset hcode hcalls hresumes =>
  ha n offset hcode.left hcalls hresumes (hb n _ hcode.right hcalls hresumes)

/-- More locals may exist before, fewer may be asked for behind. -/
theorem Typed.weaken {code : Code} {values saves values' saves' : Nat} {ids ids' kept kept' : List Id}
    (h : Typed w c u code ⟨values, saves, ids⟩ ⟨values', saves', kept⟩) (hids : ids ⊆ ids')
    (hkept : kept' ⊆ kept) :
    Typed w c u code ⟨values, saves, ids'⟩ ⟨values', saves', kept'⟩ :=
  fun n offset hcode hcalls hresumes hend =>
    (h n offset hcode hcalls hresumes (hend.weaken hkept)).weaken hids

/-! ## Expressions -/

/-- How many values a piece of an expression leaves. -/
def ExprPiece.values : ExprPiece → Nat
  | .one .value _ => 1
  | .one _ _ => 0
  | .all args => args.length

/-- The variables of a unit exist in a setting. -/
def Stocked (w : Setting) (u : Tables) : Prop :=
  ∀ name symbol, u.globals.get? name = some symbol → symbol.id ∈ w.globals

/-- A name that resolves is alive, as a local of the shape or as a global. -/
theorem Stocked.resolves {Γ : List Symbol} {name : Text} {symbol : Symbol}
    (h : Stocked w u) (hresolves : Resolves u Γ name symbol) :
    symbol.id ∈ ids Γ ∨ symbol.id ∈ w.globals := by
  cases hresolves with
  | visible hfind =>
      exact .inl (List.mem_map_of_mem (List.mem_reverse.mp (List.mem_of_find?_eq_some hfind)))
  | global _ hget => exact .inr (h name symbol hget)

section

variable (hshort : c.function.code.length < 2 ^ 63) {values saves : Nat} {Γ : List Id}

include hshort

theorem typed_literal {v : Value} (hv : v.type.isKnown = true) :
    Typed w c u (literalCode v) ⟨values, saves, Γ⟩ ⟨values + 1, saves, Γ⟩ :=
  fun _ _ hcode _ _ h => h.literal hshort hcode hv

/-- Reading a variable that is alive puts its value on top. -/
theorem typed_pushVar {id : Id} (hnonneg : 0 ≤ id.toInt) (hid : id ∈ Γ ∨ id ∈ w.globals) :
    Typed w c u [.withWord .pushVar id] ⟨values, saves, Γ⟩ ⟨values + 1, saves, Γ⟩ := by
  have hnull : id ≠ Name.nullObject := by
    rintro rfl
    exact absurd hnonneg (by decide)
  have hattached : id ≠ Name.attachedObject := by
    rintro rfl
    exact absurd hnonneg (by decide)
  exact fun _ _ hcode _ _ h => h.pushVar hshort hcode hnull hattached hid

/-- Writing takes the value on top. -/
theorem typed_popVar {id : Id} (hid : id ∈ Γ ∨ id ∈ w.globals) :
    Typed w c u [.withWord .popVar id] ⟨values + 1, saves, Γ⟩ ⟨values, saves, Γ⟩ :=
  fun _ _ hcode _ _ h => h.popVar hshort hcode hid

/-- An operation takes two values and leaves one; that it may kill the machine is part of being safe.
-/
theorem typed_binary {op : Opcode} (hop : op.binary?.isSome = true) :
    Typed w c u [.plain op] ⟨values + 2, saves, Γ⟩ ⟨values + 1, saves, Γ⟩ := by
  obtain ⟨binary, hbinary⟩ := Option.isSome_iff_exists.mp hop
  exact fun _ _ hcode _ _ h => h.arithmetic hshort hcode hbinary

theorem typed_compare {relation : Relation} :
    Typed w c u [.compare relation] ⟨values + 2, saves, Γ⟩ ⟨values, saves, Γ⟩ :=
  fun _ _ hcode _ _ h => h.compare hshort hcode

theorem typed_compareZero {relation : Relation} :
    Typed w c u (compareZero relation) ⟨values + 1, saves, Γ⟩ ⟨values, saves, Γ⟩ :=
  (typed_literal hshort rfl).append (typed_compare hshort)

/-- A value that nobody wants is dropped, one whose truth is wanted is compared. -/
theorem typed_fromValue {want : Want} {code : Code} {e : Expr}
    (h : Typed w c u code ⟨values, saves, Γ⟩ ⟨values + 1, saves, Γ⟩) :
    Typed w c u (fromValue want code) ⟨values, saves, Γ⟩
      ⟨values + (ExprPiece.one want e).values, saves, Γ⟩ := by
  cases want with
  | value => exact h
  | truth => exact h.append (typed_compareZero hshort)
  | effect => exact h.append fun _ _ hcode _ _ h => h.pop hshort hcode

/-- A truth value is pushed only where a value is wanted. -/
theorem typed_fromTruth {want : Want} {code : Code} {e : Expr}
    (h : Typed w c u code ⟨values, saves, Γ⟩ ⟨values, saves, Γ⟩) :
    Typed w c u (fromTruth want code) ⟨values, saves, Γ⟩
      ⟨values + (ExprPiece.one want e).values, saves, Γ⟩ := by
  have hpush : Typed w c u [.plain .pushCompare] ⟨values, saves, Γ⟩ ⟨values + 1, saves, Γ⟩ :=
    fun _ _ hcode _ _ h => h.pushCompare hshort hcode
  cases want with
  | value => exact h.append hpush
  | truth => exact h
  | effect => exact h.append (hpush.cons fun _ _ hcode _ _ h => h.pop hshort hcode)

/-- The code of a step of a variable, for every want. -/
theorem typed_stepLayout {operator : Token} {id : Id} {after : Bool} {want : Want} {e : Expr}
    (hnonneg : 0 ≤ id.toInt) (hid : id ∈ Γ ∨ id ∈ w.globals) :
    Typed w c u (stepLayout operator id after want) ⟨values, saves, Γ⟩
      ⟨values + (ExprPiece.one want e).values, saves, Γ⟩ := by
  have hload {values : Nat} : Typed w c u [.withWord .pushVar id] ⟨values, saves, Γ⟩
      ⟨values + 1, saves, Γ⟩ := typed_pushVar hshort hnonneg hid
  have hchange {values : Nat} : Typed w c u
      (.withWord .pushVar id :: literalCode (.ofInt 1)
        ++ [.plain (if operator.kind = .decrement then .sub else .add), .withWord .popVar id])
      ⟨values, saves, Γ⟩ ⟨values, saves, Γ⟩ := by
    refine Typed.append (hload.cons (typed_literal hshort rfl)) (.cons (typed_binary hshort ?_)
      (typed_popVar hshort hid))
    split <;> rfl
  unfold stepLayout
  simp only
  split
  · next hwant =>
      subst hwant
      exact hchange
  · split
    · exact typed_fromValue hshort (hload.cons hchange)
    · exact typed_fromValue hshort (hchange.append hload)

/-- The value is on top when it is written, and is read back if it is wanted. -/
theorem typed_assignLayout {id : Id} {want : Want} {code : Code} {e : Expr}
    (hnonneg : 0 ≤ id.toInt) (hid : id ∈ Γ ∨ id ∈ w.globals)
    (h : Typed w c u code ⟨values, saves, Γ⟩ ⟨values + 1, saves, Γ⟩) :
    Typed w c u (assignLayout id want code) ⟨values, saves, Γ⟩
      ⟨values + (ExprPiece.one want e).values, saves, Γ⟩ := by
  unfold assignLayout
  split
  · next hwant =>
      subst hwant
      exact h.append (typed_popVar hshort hid)
  · exact typed_fromValue hshort
      (h.append ((typed_popVar hshort hid).cons (typed_pushVar hshort hnonneg hid)))

omit hshort in
theorem binary?_of_arithmetic {kind : TokenKind} {op : Opcode} (h : kind.arithmetic? = some op) :
    op.binary?.isSome = true := by
  cases kind <;> first | cases h; rfl | cases h

omit hshort in
theorem binary?_of_compound {kind : TokenKind} {op : Opcode} (h : kind.compound? = some op) :
    op.binary?.isSome = true := by
  cases kind <;> first | cases h; rfl | cases h

/-- The operations on objects take a value and answer with one. -/
theorem typed_object {kind : TokenKind} {op : Opcode} (h : kind.objectOperation? = some op) :
    Typed w c u [.plain op] ⟨values + 1, saves, Γ⟩ ⟨values + 1, saves, Γ⟩ := by
  have hop : op = .instantiate ∨ op = .delete ∨ op = .attach ∨ op = .detach := by
    cases kind <;> first | cases h; simp | cases h
  rcases hop with rfl | hop
  · exact fun _ _ hcode _ _ h => h.instantiate hshort hcode
  · exact fun _ _ hcode _ _ h => h.object hshort hcode hop

/-- A call takes its arguments and leaves its result, for functions of the unit and for natives. -/
theorem typed_call {name : Text} {count : Nat} (hcall : CallSite u name count) :
    Typed w c u [.withWord .call (Name.id name)] ⟨values + count, saves, Γ⟩
      ⟨values + 1, saves, Γ⟩ := by
  intro n offset hcode hcalls _ h
  rcases hcalls name count hcall with ⟨function, hget, hsafe⟩ | ⟨native, hget, hnative, rfl, hvalues⟩
  · exact h.call hshort hcode hget hsafe
  · exact h.callNative hshort hcode hget hnative hvalues

end

/-- Expressions keep what lies on the stacks and leave what is wanted of them. -/
theorem typed_exprCode {Γ : List Symbol} {piece : ExprPiece} {code : Code}
    (h : ExprCode u Γ piece code) (hshort : c.function.code.length < 2 ^ 63) (hΓ : Nonnegative u Γ)
    (hstocked : Stocked w u) (values saves : Nat) :
    Typed w c u code ⟨values, saves, ids Γ⟩ ⟨values + piece.values, saves, ids Γ⟩ := by
  -- the operands of an expression are typed over whatever lies below them, so the count of values and
  -- of saved comparisons is general in the induction
  induction h generalizing values saves with
  | ident hresolves =>
      exact typed_fromValue hshort
        (typed_pushVar hshort (hΓ.resolves hresolves) (hstocked.resolves hresolves))
  | number hliteral => exact typed_fromValue hshort (typed_literal hshort (Expr.known_literal hliteral))
  | string => exact typed_fromValue hshort (typed_literal hshort rfl)
  | true_ => exact typed_fromValue hshort (typed_literal hshort rfl)
  | false_ => exact typed_fromValue hshort (typed_literal hshort rfl)
  | null =>
      exact typed_fromValue hshort fun _ _ hcode _ _ h => h.pushHandle hshort hcode (.inl rfl)
  | attached =>
      exact typed_fromValue hshort fun _ _ hcode _ _ h => h.pushHandle hshort hcode (.inr rfl)
  | minusNumber _ hliteral =>
      exact typed_fromValue hshort (typed_literal hshort (Expr.known_literal hliteral))
  | minus _ _ _ ih =>
      exact typed_fromValue hshort (((typed_literal hshort rfl).append (ih (values + 1) saves)).append
        (typed_binary hshort rfl))
  | tilde _ _ ih =>
      exact typed_fromValue hshort (((ih values saves).append (typed_literal hshort rfl)).append
        (typed_binary hshort rfl))
  | bang _ _ ih =>
      exact typed_fromTruth hshort ((ih values saves).append (typed_compareZero hshort))
  | plus _ _ _ _ ih => exact typed_fromValue hshort (ih values saves)
  | step hresolves =>
      exact typed_stepLayout hshort (hΓ.resolves hresolves) (hstocked.resolves hresolves)
  | relation _ _ _ ihleft ihright =>
      exact typed_fromTruth hshort (((ihleft values saves).append (ihright (values + 1) saves)).append
        (typed_compare hshort))
  | connective _ _ _ _ ihleft ihright =>
      -- the truth of the left side waits among the saved comparisons while the right side is computed
      have hsave : Typed w c u [.plain .saveCompare] ⟨values, saves, ids Γ⟩
          ⟨values, saves + 1, ids Γ⟩ := fun _ _ hcode _ _ h => h.saveCompare hshort hcode
      exact typed_fromTruth hshort ((((ihleft values saves).append hsave).append
        (ihright values (saves + 1))).append fun _ _ hcode _ _ h => h.combine hshort hcode)
  | arithmetic _ _ hop _ _ ihleft ihright =>
      exact typed_fromValue hshort (((ihleft values saves).append (ihright (values + 1) saves)).append
        (typed_binary hshort (binary?_of_arithmetic hop)))
  | assign _ hresolves _ ih =>
      exact typed_assignLayout hshort (hΓ.resolves hresolves) (hstocked.resolves hresolves)
        (ih values saves)
  | compound hop hresolves _ ih =>
      exact typed_assignLayout hshort (hΓ.resolves hresolves) (hstocked.resolves hresolves)
        (((typed_pushVar hshort (hΓ.resolves hresolves) (hstocked.resolves hresolves)).cons
          (ih (values + 1) saves)).append (typed_binary hshort (binary?_of_compound hop)))
  | object hop _ ih =>
      exact typed_fromValue hshort ((ih values saves).append (typed_object hshort hop))
  | call _ hlisted harity hnamed _ ih =>
      exact typed_fromValue hshort
        ((ih values saves).append (typed_call hshort ⟨hlisted, harity, hnamed⟩))
  | nil => exact typed_nil
  | @cons e rest first more _ _ ihfirst ihrest =>
      have hcount : values + (ExprPiece.all (e :: rest)).values
          = values + 1 + (ExprPiece.all rest).values := by
        simp only [ExprPiece.values, List.length_cons]
        omega
      rw [hcount]
      exact (ihfirst values saves).append (ihrest (values + 1) saves)

/-! ## Statements -/

/-- The variables that statements add are none of those that can be seen before them. -/
theorem StmtCode.added {ctx : FunctionContext} {outer inner inner' : List Symbol}
    {piece : StmtPiece} {code : Code} (h : StmtCode u ctx outer inner piece inner' code) :
    ∃ added, inner' = inner ++ added ∧ ∀ symbol ∈ added, symbol.id ∉ ids (outer ++ inner) := by
  induction h with
  | @declare outer inner d symbol code _ _ hfresh _ =>
      refine ⟨[symbol], rfl, fun other hother => ?_⟩
      obtain rfl := List.mem_singleton.mp hother
      exact hfresh
  | cons _ _ ihfirst ihmore =>
      obtain ⟨first, rfl, hfirst⟩ := ihfirst
      obtain ⟨more, rfl, hmore⟩ := ihmore
      refine ⟨first ++ more, by simp, fun symbol hsymbol => ?_⟩
      rcases List.mem_append.mp hsymbol with hsymbol | hsymbol
      · exact hfirst symbol hsymbol
      · intro hid
        refine hmore symbol hsymbol ?_
        simp only [ids, List.map_append, List.mem_append] at hid ⊢
        tauto
  | startDeclare _ ih => exact ih
  | return_ | truth | effect | nothing | ifElse | loop | nil | block | leaving | otherwiseNone
    | otherwise | elseIf | startNothing | startEvaluate =>
      exact ⟨[], by simp, by simp⟩

section

variable (hshort : c.function.code.length < 2 ^ 63)

include hshort

/-- Freeing some variables leaves those that are not among them. -/
theorem typed_freeCode {values saves : Nat} {Γ kept : List Id} (freed : List Id) (hsub : kept ⊆ Γ)
    (hkept : ∀ id ∈ freed, id ∉ kept) :
    Typed w c u (freeCode freed) ⟨values, saves, Γ⟩ ⟨values, saves, kept⟩ := by
  induction freed generalizing Γ with
  | nil => exact typed_nil.weaken hsub (List.Subset.refl _)
  | cons id freed ih =>
      have hfirst : Typed w c u [.withWord .free id] ⟨values, saves, Γ⟩ ⟨values, saves, kept⟩ :=
        fun _ _ hcode _ _ h => h.free hshort hcode hsub (hkept id (by simp))
      exact hfirst.cons (ih (List.Subset.refl _) fun id' hid' => hkept id' (by simp [hid']))

/-- What a piece declared is released behind it. -/
theorem typed_release {ctx : FunctionContext} {outer released : List Symbol} {piece : StmtPiece}
    {code : Code} (h : StmtCode u ctx outer [] piece released code) (values saves : Nat) :
    Typed w c u (freeCode (ids released).reverse) ⟨values, saves, ids (outer ++ released)⟩
      ⟨values, saves, ids outer⟩ := by
  obtain ⟨added, hadded, hfresh⟩ := h.added
  rw [List.nil_append] at hadded
  subst hadded
  refine typed_freeCode hshort _ (by simp [ids]) fun id hid => ?_
  obtain ⟨symbol, hsymbol, rfl⟩ := List.mem_map.mp (List.mem_reverse.mp hid)
  simpa using hfresh symbol hsymbol

/-- A function is left with one value. -/
theorem exits_leaveLayout {result : Code} {freed Γ Δ : List Id} {saves : Nat}
    (htype : c.function.returnType.isKnown = true)
    (hresult : Typed w c u result ⟨0, saves, Γ⟩
      ⟨if c.function.returnType = .void then 0 else 1, saves, Δ⟩) :
    Exits w c u (leaveLayout c.function.returnType result freed) ⟨0, saves, Γ⟩ := by
  have hret : Exits w c u [.plain .ret] ⟨1, saves, []⟩ :=
    fun _ _ hcode _ hresumes => SafeAt.ret hshort hcode htype hresumes
  have hfree {values : Nat} : Typed w c u (freeCode freed) ⟨values, saves, Δ⟩
      ⟨values, saves, []⟩ := typed_freeCode hshort freed (by simp) (by simp)
  unfold leaveLayout
  split at hresult
  · next hvoid =>
      rw [if_pos hvoid]
      exact ((hresult.append hfree).append (typed_literal hshort rfl)).exits hret
  · next hvoid =>
      rw [if_neg hvoid, List.append_nil]
      exact (hresult.append hfree).exits hret

/-- A return leaves the frame with one value of a known type. -/
theorem exits_returnCode {ctx : FunctionContext} {Γ : List Symbol} {e? : Option Expr}
    {code : Code} {saves : Nat} (h : ReturnCode u ctx Γ e? code) (hΓ : Nonnegative u Γ)
    (hstocked : Stocked w u) (htype : c.function.returnType.isKnown = true)
    (hctx : ctx.returnType = c.function.returnType) :
    Exits w c u code ⟨0, saves, ids Γ⟩ := by
  cases h with
  | void hvoid =>
      rw [hctx] at hvoid ⊢
      refine exits_leaveLayout hshort htype (Δ := ids Γ) ?_
      rw [if_pos hvoid]
      exact typed_nil
  | zero hvoid =>
      rw [hctx] at hvoid ⊢
      refine exits_leaveLayout hshort htype (Δ := ids Γ) ?_
      rw [if_neg hvoid]
      exact typed_literal hshort (Value.fills_zero ⟨htype, hvoid⟩).known
  -- the constant goes through a variable of its own, which is freed with the others
  | @constant e v hvoid _ hliteral =>
      rw [hctx] at hvoid hliteral ⊢
      refine exits_leaveLayout hshort htype (Δ := Name.id (resultName ctx) :: ids Γ) ?_
      rw [if_neg hvoid]
      have hmem : Name.id (resultName ctx) ∈ Name.id (resultName ctx) :: ids Γ
        ∨ Name.id (resultName ctx) ∈ w.globals := .inl (by simp)
      have hallocate : Typed w c u [.allocate (UInt64.ofNat v.data.length)
          c.function.returnType (Name.id (resultName ctx))] ⟨0, saves, ids Γ⟩
          ⟨0, saves, Name.id (resultName ctx) :: ids Γ⟩ :=
        fun _ _ hcode _ _ h => h.allocate hshort hcode ⟨htype, hvoid⟩
      refine hallocate.cons (Typed.cons ?_
        (typed_pushVar hshort (Name.id_nonneg (resultName ctx)) hmem))
      exact fun _ _ hcode _ _ h => h.set hshort hcode hmem
  | value hvoid _ hcode =>
      rw [hctx] at hvoid ⊢
      refine exits_leaveLayout hshort htype (Δ := ids Γ) ?_
      rw [if_neg hvoid]
      exact typed_exprCode hcode hshort hΓ hstocked 0 saves

/-- A start value is consumed by its variable. -/
theorem typed_initCode {Γ : List Symbol} {symbol : Symbol} {init? : Option Expr}
    {code : Code} {saves : Nat} (h : InitCode u Γ symbol init? code) (hΓ : Nonnegative u Γ)
    (hstocked : Stocked w u) (hmem : symbol ∈ Γ) :
    Typed w c u code ⟨0, saves, ids Γ⟩ ⟨0, saves, ids Γ⟩ := by
  have hid : symbol.id ∈ ids Γ ∨ symbol.id ∈ w.globals := .inl (List.mem_map_of_mem hmem)
  cases h with
  | none => exact typed_nil
  | constant => exact fun _ _ hcode _ _ h => h.set hshort hcode hid
  | value _ hcode =>
      exact (typed_exprCode hcode hshort hΓ hstocked 0 saves).append (typed_popVar hshort hid)

/-- Test, body and tail all keep the shape, so the branch does, on both ways. -/
theorem typed_branchLayout {test body tail : Code} {σ : Shape} (htest : Typed w c u test σ σ)
    (hbody : Typed w c u body σ σ) (htail : Typed w c u tail σ σ)
    (hfits : BranchFits body tail) : Typed w c u (branchLayout test body tail) σ σ := by
  intro n offset hcode hcalls hresumes h
  obtain ⟨start, rest, places⟩ := branchPlaces hcode
  have hstart := places.start_eq
  have hrest := places.rest_eq
  rw [places.size] at h
  have hotherwise := htail n rest places.otherwise hcalls hresumes h
  have hdone : SafeAt w c n (start + Instr.sizeAll body) σ := by
    cases hempty : tail.isEmpty with
    | true =>
        have hskip : skipSize body tail = Instr.sizeAll body := by simp [skipSize, hempty]
        rwa [hrest, hskip] at hotherwise
    | false =>
        have hskip : skipSize body tail = Instr.sizeAll body + 3 := by
          simp [skipSize, hempty, relativeJumpSize]
        exact SafeAt.jumpBy hshort (places.exit hempty) (hfits.exit hempty).1
          (hfits.exit hempty).2 (by omega) h
  have hinner := hbody n start places.inner hcalls hresumes hdone
  have hskipped := SafeAt.jumpBy hshort places.skip hfits.skip.1 hfits.skip.2 (by omega) hotherwise
  have henter := SafeAt.jumpIfBy hshort places.enter (by decide) (by decide)
    (by rw [relativeJumpSize]; omega) (fun k hk => hinner.mono hk.le) hskipped
  exact (htest n (offset + 1) places.condition hcalls hresumes henter).setFlag hshort places.flag

/-- The jump back to the body is taken with a step less to go, so the body and the test are safe by
induction on the number of steps. -/
theorem typed_loopLayout {kind : LoopKind} {inner test : Code} {saves : Nat} {Γ : List Id}
    (hinner : ∀ saves, Typed w c u inner ⟨0, saves, Γ⟩ ⟨0, saves, Γ⟩)
    (htest : ∀ saves, Typed w c u test ⟨0, saves, Γ⟩ ⟨0, saves, Γ⟩)
    (hfits : LoopFits kind inner test) :
    Typed w c u (loopLayout kind inner test) ⟨0, saves, Γ⟩ ⟨0, saves, Γ⟩ := by
  intro n offset hcode hcalls hresumes h
  obtain ⟨start, again, places⟩ := loopPlaces hcode
  have hstart := places.start_eq
  have hagain := places.again_eq
  rw [places.size] at h
  -- a loop may go round for ever, so its safety is by induction on the steps that are left
  have hturn : ∀ k ≤ n, SafeAt w c k start ⟨0, saves + 1, Γ⟩ ∧ SafeAt w c k again ⟨0, saves + 1, Γ⟩ := by
    intro k
    induction k using Nat.strong_induction_on with
    | _ k ih =>
        intro hk
        have hleave := (h.mono hk).restoreCompare hshort places.restore
        have hback := SafeAt.jumpIfBy hshort places.back hfits.back.1 hfits.back.2
          (by simp only [backDistance, relativeJumpSize]; omega)
          (fun j hj => (ih j hj (by omega)).1) hleave
        have hcondition := (htest (saves + 1) k _ places.condition (hcalls.mono hk)
          (hresumes.mono hk) hback).setFlag hshort places.flag
        refine ⟨hinner (saves + 1) k start places.inside (hcalls.mono hk) (hresumes.mono hk) ?_,
          hcondition⟩
        rwa [← hagain]
  refine SafeAt.saveCompare hshort places.save ?_
  have hsize : (Instr.plain .saveCompare).size = 1 := rfl
  rw [hsize]
  by_cases hkind : kind = .doWhile
  · rw [if_pos hkind] at hstart
    exact hstart ▸ (hturn n le_rfl).1
  · rw [if_neg hkind] at hstart
    exact SafeAt.jumpBy hshort (places.forward hkind) (hfits.forward hkind).1
      (hfits.forward hkind).2 (by omega) (hturn n le_rfl).2

end

/-- Whether a piece ends in a return. -/
def StmtPiece.leaves : StmtPiece → Bool
  | .one (.expr _ _ .return_ _) => true
  | .all body => endsWithReturn body
  | _ => false

/-- Statements end with a return if the last one does. -/
theorem endsWithReturn_cons {s : Stmt} {rest : List Stmt} (h : endsWithReturn (s :: rest) = true) :
    rest = [] ∧ (StmtPiece.one s).leaves = true ∨ endsWithReturn rest = true := by
  cases rest with
  | nil =>
      refine .inl ⟨rfl, ?_⟩
      simp only [endsWithReturn, List.getLast?_singleton] at h
      split at h
      · next hs =>
          obtain rfl := Option.some.inj hs
          rfl
      · cases h
  | cons s' rest =>
      refine .inr ?_
      simpa only [endsWithReturn, List.getLast?_cons_cons] using h

/-- Statements keep the stacks and add the locals that they declare, unless they end in a return. -/
theorem typed_stmtCode {ctx : FunctionContext} {outer inner inner' : List Symbol}
    {piece : StmtPiece} {code : Code} (h : StmtCode u ctx outer inner piece inner' code)
    (hshort : c.function.code.length < 2 ^ 63) (hstocked : Stocked w u)
    (htype : c.function.returnType.isKnown = true)
    (hctx : ctx.returnType = c.function.returnType) (hΓ : Nonnegative u (outer ++ inner)) :
    (∀ saves, Typed w c u code ⟨0, saves, ids (outer ++ inner)⟩
      ⟨0, saves, ids (outer ++ inner')⟩)
    ∧ (piece.leaves = true → ∀ saves, Exits w c u code ⟨0, saves, ids (outer ++ inner)⟩) := by
  have hknown : ctx.returnType.isKnown = true := hctx ▸ htype
  -- both halves go along one induction: what is behind the statements keeps its shape, and statements
  -- that end with a return never come to their end
  induction h with
  | @declare outer inner d symbol code hsymbol hstorable hfresh hinit =>
      have hid : 0 ≤ symbol.id.toInt := by
        rw [hsymbol]
        exact Name.id_nonneg _
      have hΓ' : Nonnegative u (outer ++ (inner ++ [symbol])) := by
        simpa using hΓ.snoc hid
      refine ⟨fun saves => ?_, by rintro ⟨⟩⟩
      refine Typed.cons (τ := ⟨0, saves, symbol.id :: ids (outer ++ inner)⟩)
        (fun _ _ hcode _ _ h => h.allocate hshort hcode hstorable) ?_
      refine (typed_initCode hshort hinit hΓ' hstocked (by simp)).weaken ?_ (List.Subset.refl _)
      intro id
      -- a new variable is listed last and lives in front; the shape asks only which ids are alive
      simp only [ids, List.map_append, List.map_cons, List.map_nil, List.mem_append, List.mem_cons,
        List.not_mem_nil]
      tauto
  | return_ hreturn =>
      exact ⟨fun saves => (exits_returnCode hshort hreturn hΓ hstocked htype hctx).typed,
        fun _ saves => exits_returnCode hshort hreturn hΓ hstocked htype hctx⟩
  | truth hcode => exact ⟨typed_exprCode hcode hshort hΓ hstocked 0, by rintro ⟨⟩⟩
  | effect hreturn _ hcode =>
      refine ⟨typed_exprCode hcode hshort hΓ hstocked 0, fun hleaves => ?_⟩
      simp [StmtPiece.leaves, hreturn] at hleaves
  | nothing hreturn =>
      refine ⟨fun saves => typed_nil, fun hleaves => ?_⟩
      simp [StmtPiece.leaves, hreturn] at hleaves
  | ifElse htest hbody hrest hfits ihbody ihrest =>
      refine ⟨fun saves => ?_, by rintro ⟨⟩⟩
      -- the whole chain runs between one save and one restore of the comparison
      have hbranch := typed_branchLayout hshort
        (typed_exprCode htest hshort hΓ hstocked 0 (saves + 1)) ((ihbody hΓ).1 (saves + 1))
        ((ihrest hΓ).1 (saves + 1)) hfits
      exact Typed.append (Typed.cons (fun _ _ hcode _ _ h => h.saveCompare hshort hcode) hbranch)
        fun _ _ hcode _ _ h => h.restoreCompare hshort hcode
  | @loop outer inner started name t kind condition? step? start body prologue code next test hstart
      hbody hnext htest hfits ihstart ihbody =>
      refine ⟨fun saves => ?_, by rintro ⟨⟩⟩
      have hΓ₁ : Nonnegative u (outer ++ inner ++ started) :=
        (sound_stmtCode hstart hknown (by simpa using hΓ)).1
      have hstep (saves : Nat) : Typed w c u next ⟨0, saves, ids (outer ++ inner ++ started)⟩
          ⟨0, saves, ids (outer ++ inner ++ started)⟩ := by
        cases hnext with
        | none => exact typed_nil
        | step _ hcode => exact typed_exprCode hcode hshort hΓ₁ hstocked 0 saves
      have hprologue := (ihstart (by simpa using hΓ)).1 saves
      have hloop : Typed w c u (loopLayout kind (code ++ next) test)
          ⟨0, saves, ids (outer ++ inner ++ started)⟩
          ⟨0, saves, ids (outer ++ inner ++ started)⟩ :=
        typed_loopLayout hshort (fun saves => ((ihbody hΓ₁).1 saves).append (hstep saves))
          (typed_exprCode htest hshort hΓ₁ hstocked 0) hfits
      rw [List.append_nil] at hprologue
      exact (hprologue.append hloop).append (typed_release hshort hstart 0 saves)
  | nil => exact ⟨fun saves => typed_nil, by rintro ⟨⟩⟩
  | cons hfirst hmore ihfirst ihmore =>
      have hΓ' := (sound_stmtCode hfirst hknown hΓ).1
      obtain ⟨hfirst', hleaves'⟩ := ihfirst hΓ
      obtain ⟨hmore', hreturns⟩ := ihmore hΓ'
      refine ⟨fun saves => (hfirst' saves).append (hmore' saves), fun hleaves saves => ?_⟩
      -- the return stands in the first statement only if nothing follows it
      rcases endsWithReturn_cons hleaves with ⟨rfl, hlast⟩ | hlast
      · cases hmore
        rw [List.append_nil]
        exact hleaves' hlast saves
      · exact (hfirst' saves).exits (hreturns hlast saves)
  | @block outer inner dropped body code _ hbody ih =>
      refine ⟨fun saves => ?_, by rintro ⟨⟩⟩
      have hcode := (ih (by simpa using hΓ)).1 saves
      rw [List.append_nil] at hcode
      exact hcode.append (typed_release hshort hbody 0 saves)
  | leaving hends hbody ih =>
      refine ⟨fun saves => ?_, by rintro ⟨⟩⟩
      have hcode := (ih (by simpa using hΓ)).2 hends saves
      rw [List.append_nil] at hcode
      exact hcode.typed
  | otherwiseNone => exact ⟨fun saves => typed_nil, by rintro ⟨⟩⟩
  | otherwise _ ih => exact ⟨(ih hΓ).1, by rintro ⟨⟩⟩
  | elseIf htest hbody hrest hfits ihbody ihrest =>
      exact ⟨fun saves => typed_branchLayout hshort (typed_exprCode htest hshort hΓ hstocked 0 saves)
        ((ihbody hΓ).1 saves) ((ihrest hΓ).1 saves) hfits, by rintro ⟨⟩⟩
  | startNothing => exact ⟨fun saves => typed_nil, by rintro ⟨⟩⟩
  | startDeclare _ ih => exact ⟨(ih hΓ).1, by rintro ⟨⟩⟩
  | startEvaluate hcode => exact ⟨typed_exprCode hcode hshort hΓ hstocked 0, by rintro ⟨⟩⟩

/-! ## Functions -/

/-- The prologue turns the arguments into locals, the last one first. -/
theorem typed_prologue (hshort : c.function.code.length < 2 ^ 63) {params : List Symbol}
    (hparams : ∀ symbol ∈ params, symbol.type.Storable) :
    Typed w c u (prologue params) ⟨params.length, 0, []⟩ ⟨0, 0, ids params⟩ := by
  have htake (taken : List Symbol) (Γ : List Id) (h : ∀ symbol ∈ taken, symbol.type.Storable) :
      Typed w c u (taken.flatMap fun p =>
        [.allocate (storageSize p.type none) p.type p.id, .withWord .popVar p.id])
        ⟨taken.length, 0, Γ⟩ ⟨0, 0, (ids taken).reverse ++ Γ⟩ := by
    induction taken generalizing Γ with
    | nil => exact typed_nil
    | cons p taken ih =>
        have hrest := ih (p.id :: Γ) fun symbol hsymbol => h symbol (by simp [hsymbol])
        have hfirst : Typed w c u [.allocate (storageSize p.type none) p.type p.id]
            ⟨taken.length + 1, 0, Γ⟩ ⟨taken.length + 1, 0, p.id :: Γ⟩ :=
          fun _ _ hcode _ _ h' => h'.allocate hshort hcode (h p (by simp))
        have hpop : Typed w c u [.withWord .popVar p.id]
            ⟨taken.length + 1, 0, p.id :: Γ⟩ ⟨taken.length, 0, p.id :: Γ⟩ :=
          typed_popVar hshort (.inl (by simp))
        simpa [ids] using (hfirst.cons hpop).append hrest
  have hall := htake params.reverse [] fun symbol hsymbol => hparams symbol (by simpa using hsymbol)
  rw [List.length_reverse] at hall
  exact hall.weaken (List.Subset.refl _) (by simp [ids])

/-- Each parameter has one symbol. -/
theorem ParamSymbols.length_eq {function : Text} {before symbols : List Symbol} {params : List Param}
    (h : ParamSymbols function before params symbols) : symbols.length = params.length := by
  induction h with
  | nil => rfl
  | cons _ _ _ _ ih => simp [ih]

theorem paramSymbols_nonnegative {function : Text} {params : List Param} {symbols : List Symbol}
    (h : ParamSymbols function [] params symbols) (hu : Nonnegative u []) :
    Nonnegative u ([] ++ symbols) :=
  ⟨fun symbol hsymbol => (paramSymbols_lawful h symbol hsymbol).2, hu.global⟩

/-- A function is safe from its start on, with its arguments on the stack. -/
theorem safe_functionCode {f : FuncDecl} {body : List Stmt} {code : Code} {n : Nat}
    (h : FunctionCode u f body code) (hfunction : c.function = storedFunction f code)
    (hshort : (Instr.encodeAll code).length < 2 ^ 63) (hu : Nonnegative u []) (hstocked : Stocked w u)
    (htype : f.returnType.isKnown = true) (hcalls : SafeCalls w u n) (hresumes : Resumes w c n) :
    SafeAt w c n 0 ⟨f.params.length, 0, []⟩ := by
  have hcode : c.function.code = Instr.encodeAll code := by rw [hfunction]; rfl
  have hreturn : c.function.returnType = f.returnType := by rw [hfunction]; rfl
  have hplaced : Placed c.function.code 0 code := by
    rw [hcode]
    exact .whole ((returns_functionCode h hu htype).encodable hshort)
  have hshort' : c.function.code.length < 2 ^ 63 := by rwa [hcode]
  have hknown : c.function.returnType.isKnown = true := by rwa [hreturn]
  -- the code leaves the call by itself, whatever stands behind it
  suffices Exits w c u code ⟨f.params.length, 0, []⟩ from this n 0 hplaced hcalls hresumes
  cases h with
  -- prologue, body and the return behind it
  | falling _ hsymbols hbody hexit =>
      have hΓ := (paramSymbols_nonnegative hsymbols hu)
      have hprologue := typed_prologue (w := w) (u := u) hshort' fun symbol hsymbol =>
        (paramSymbols_lawful hsymbols symbol hsymbol).1
      rw [hsymbols.length_eq] at hprologue
      have hΓ' := (sound_stmtCode hbody htype hΓ).1
      exact (hprologue.append ((typed_stmtCode hbody hshort' hstocked hknown hreturn.symm hΓ).1
        0)).exits (exits_returnCode hshort' hexit hΓ' hstocked hknown hreturn.symm)
  -- the body itself ends in a return
  | returning hends hsymbols hbody =>
      have hΓ := (paramSymbols_nonnegative hsymbols hu)
      have hprologue := typed_prologue (w := w) (u := u) hshort' fun symbol hsymbol =>
        (paramSymbols_lawful hsymbols symbol hsymbol).1
      rw [hsymbols.length_eq] at hprologue
      exact hprologue.exits ((typed_stmtCode hbody hshort' hstocked hknown hreturn.symm hΓ).2 hends 0)

end Gen

end TickScript
