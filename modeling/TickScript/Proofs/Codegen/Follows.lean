import TickScript.Proofs.Codegen.Safe
import TickScript.Proofs.Correspondence

/-!
# Code that follows an evaluation

`Follows s n code pre x post` is a triple: wherever the code is placed in the call of the scene, a
machine that meets `pre` follows the evaluation `x` and meets `post` behind the code. Triples compose
as evaluations do. Each instruction has one, and the triples of expressions are put together from
them along the rules of `ExprCode`.

The condition in front and the one behind are predicates of an offset, a store and a machine, so a
triple says where the machine stands and which variables it has. `At` is the predicate that is used
throughout: the call of the scene, the values on the stack, the flag and the saved compare values.

An evaluation may fail to come to an end, and may use up its fuel. `Follows` therefore carries the
number of steps for which the machine keeps pace, and composes with `mono`. Triples about code
without a part in the evaluation (`Does`) compose with the others by `prepend` and `append`; the
rules of expressions then become short, with one lemma for each constructor (`followed_…`) and the
induction over `ExprCode` at the end.
-/

namespace TickScript

namespace Gen

open Machine

/-- Code that leads from one condition to another as an evaluation says. -/
def Follows {α : Type} (s : Scene) (n : Nat) (code : Code) (pre : Nat → Store → Machine → Prop)
    (x : Eval α) (post : α → Nat → Store → Machine → Prop) : Prop :=
  ∀ offset σ m, Placed s.call.function.code offset code → pre offset σ m →
    Simulates n m (x σ) fun a σ' m' => post a (offset + Instr.sizeAll code) σ' m'

/-- Code that leads from one condition to another and has no part in an evaluation. -/
abbrev Does (s : Scene) (n : Nat) (code : Code) (pre post : Nat → Store → Machine → Prop) : Prop :=
  Follows s n code pre (pure ()) fun _ => post

section

variable {α β : Type} {s : Scene} {n : Nat} {a b : Code} {pre : Nat → Store → Machine → Prop}
  {x : Eval α}

namespace Follows

/-- No code follows what the evaluation does without a step. -/
theorem nil {v : α} {post : α → Nat → Store → Machine → Prop}
    (h : ∀ offset σ m, pre offset σ m → post v offset σ m) : Follows s n [] pre (pure v) post :=
  fun offset σ m _ hpre => Simulates.pure (h offset σ m hpre)

/-- Code in a row follows evaluations in a row. -/
theorem bind {f : α → Eval β} {mid : α → Nat → Store → Machine → Prop}
    {post : β → Nat → Store → Machine → Prop} (ha : Follows s n a pre x mid)
    (hb : ∀ v, Follows s n b (mid v) (f v) post) : Follows s n (a ++ b) pre (x >>= f) post := by
  intro offset σ m hcode hpre
  refine (ha offset σ m hcode.left hpre).bind fun v σ' m' hmid => ?_
  have hrest := hb v _ σ' m' hcode.right hmid
  rwa [Instr.sizeAll_append, ← Nat.add_assoc]

/-- One instruction and the code behind it follow two evaluations one after the other. -/
theorem cons {i : Instr} {f : α → Eval β} {mid : α → Nat → Store → Machine → Prop}
    {post : β → Nat → Store → Machine → Prop} (hi : Follows s n [i] pre x mid)
    (hb : ∀ v, Follows s n b (mid v) (f v) post) : Follows s n (i :: b) pre (x >>= f) post :=
  hi.bind hb

/-- An evaluation that no code belongs to. -/
theorem silent {f : α → Eval β} {mid : α → Nat → Store → Machine → Prop}
    {post : β → Nat → Store → Machine → Prop} (ha : Follows s n a pre x mid)
    (hf : ∀ v, Follows s n [] (mid v) (f v) post) : Follows s n a pre (x >>= f) post := by
  rw [← List.append_nil a]
  exact ha.bind hf

/-- A function of the value is no step of the machine. -/
theorem map {f : α → β} {mid : α → Nat → Store → Machine → Prop}
    {post : β → Nat → Store → Machine → Prop} (ha : Follows s n a pre x mid)
    (hpost : ∀ v offset σ m, mid v offset σ m → post (f v) offset σ m) :
    Follows s n a pre (f <$> x) post := by
  rw [← bind_pure_comp]
  exact ha.silent fun v => nil (hpost v)

/-- Less may be asked of the machine than is known of it. -/
theorem weaken {pre' : Nat → Store → Machine → Prop} {post : α → Nat → Store → Machine → Prop}
    (h : Follows s n a pre x post) (hpre : ∀ offset σ m, pre' offset σ m → pre offset σ m) :
    Follows s n a pre' x post :=
  fun offset σ m hcode hm => h offset σ m hcode (hpre offset σ m hm)

theorem imp {mid post : α → Nat → Store → Machine → Prop} (h : Follows s n a pre x mid)
    (hpost : ∀ v offset σ m, mid v offset σ m → post v offset σ m) : Follows s n a pre x post :=
  fun offset σ m hcode hpre => (h offset σ m hcode hpre).imp fun v σ' m' _ => hpost v _ σ' m'

/-- Code that keeps pace for `n` steps does so for fewer. -/
theorem mono {k : Nat} {post : α → Nat → Store → Machine → Prop} (h : Follows s n a pre x post)
    (hk : k ≤ n) : Follows s k a pre x post :=
  fun offset σ m hcode hpre => (h offset σ m hcode hpre).mono hk

/-- Code that arrives at a value known beforehand. -/
theorem const {v : α} {post : α → Nat → Store → Machine → Prop} (h : Does s n a pre (post v)) :
    Follows s n a pre (pure v) post :=
  fun offset σ m hcode hpre => (h offset σ m hcode hpre : Leads _ m)

/-- Code in front of an evaluation. -/
theorem prepend {mid : Nat → Store → Machine → Prop} {post : α → Nat → Store → Machine → Prop}
    (ha : Does s n a pre mid) (hb : Follows s n b mid x post) : Follows s n (a ++ b) pre x post := by
  have hpure : ((pure () : Eval Unit) >>= fun _ => x) = x := pure_bind () fun _ => x
  rw [← hpure]
  exact ha.bind fun _ => hb

/-- Code behind an evaluation. -/
theorem append {mid post : α → Nat → Store → Machine → Prop} (ha : Follows s n a pre x mid)
    (hb : ∀ v, Does s n b (mid v) (post v)) : Follows s n (a ++ b) pre x post := by
  rw [← bind_pure x]
  exact ha.bind fun v => (hb v).const

/-- A single instruction, from a condition under which the machine stands before it. -/
theorem of_step {L : LocalsRel} {armed : Bool} {vs : List Value} {cvs : List Bool} {i : Instr}
    {post : α → Nat → Store → Machine → Prop}
    (hat : ∀ offset σ m, pre offset σ m → At s L armed vs cvs offset σ m)
    (hretick : ∀ offset σ m t, pre offset σ m → pre offset σ (m.retick t))
    (hstep : ∀ offset σ m, pre offset σ m → m.WithinLimit → m.Next offset i → ∃ m',
      m.step = .ok m' ∧ Simulates n m' (x σ) fun v σ' m'' => post v (offset + i.size) σ' m'') :
    Follows s n [i] pre x post := by
  intro offset σ m hcode hpre
  exact Simulates.of_steps ((hat offset σ m hpre).steps hcode fun t hlimit hnext =>
    hstep offset σ (m.retick t) (hretick offset σ m t hpre) hlimit hnext)

/-- The triple of one instruction comes from its step: whatever the step leads to follows the
evaluation. -/
theorem instr {L : LocalsRel} {armed : Bool} {vs : List Value} {cvs : List Bool} {i : Instr}
    {post : α → Nat → Store → Machine → Prop}
    (hstep : ∀ offset σ m, At s L armed vs cvs offset σ m → m.WithinLimit → m.Next offset i →
      ∃ m', m.step = .ok m' ∧
        Simulates n m' (x σ) fun v σ' m'' => post v (offset + i.size) σ' m'') :
    Follows s n [i] (At s L armed vs cvs) x post :=
  of_step (fun _ _ _ h => h) (fun _ _ _ t h => h.retick t) hstep

end Follows

end

/-- A machine at an offset with a compare value. -/
structure Compared (s : Scene) (L : LocalsRel) (armed : Bool) (vs : List Value) (cvs : List Bool)
    (cv : Bool) (offset : Nat) (σ : Store) (m : Machine) : Prop extends At s L armed vs cvs offset σ m where
  compare : m.compareValue = cv

variable {u : Tables} {s : Scene} {n : Nat} {Γ : List Symbol} {armed : Bool} {vs : List Value}
  {cvs : List Bool} {L : LocalsRel}

/-! ## The operand stack -/

/-- Words that are pushed one by one, whatever the count of ticks is meanwhile. -/
theorem leads_pushWords (c : Activation) (hshort : c.function.code.length < 2 ^ 63)
    (words : List UInt64) {offset : Nat} {locals : Table Id Value} {m : Machine}
    (hcode : Placed c.function.code offset (words.map Instr.push)) (hstate : m.state = .running)
    (halive : m.killFlag = false) (hframes : m.frames = c.frame offset locals :: c.callers) :
    Leads (fun m' => ∃ t, m' = retick t { m with
      frames := c.frame (offset + Instr.sizeAll (words.map Instr.push)) locals :: c.callers
      stack := words.reverse ++ m.stack }) m := by
  induction words generalizing offset m with
  | nil =>
      refine .here ⟨m.ticks, ?_⟩
      cases m
      simp_all [retick, Instr.sizeAll]
  | cons word words ih =>
      refine Leads.of_steps ⟨hstate, halive, fun _ t => ?_⟩
      have hnext : (m.retick t).Next offset (.push word) := ⟨_, _, hframes, rfl, hcode.head, hshort⟩
      refine ⟨_, step_push hnext, ?_⟩
      rw [past, goto_eq (m := m.retick t) hframes]
      refine Leads.trans (ih hcode.tail ?_ ?_ rfl) fun m' hm' => .here ?_
      · exact hstate
      · exact halive
      obtain ⟨t', rfl⟩ := hm'
      refine ⟨t', ?_⟩
      simp [retick, Instr.sizeAll, Nat.add_assoc]

/-- Any value of a known type can be pushed by code. -/
theorem does_literal {v : Value} (hv : v.type.isKnown = true) :
    Does s n (literalCode v) (At s L armed vs cvs) (At s L armed (vs ++ [v]) cvs) := by
  intro offset σ m hcode h
  obtain ⟨locals, hframes, hbound⟩ := h.frames
  have hwords : literalCode v = (OperandStack.words v).map Instr.push := by
    simp [literalCode, Instr.literal, OperandStack.words]
  rw [hwords] at hcode ⊢
  refine Simulates.of_leads
    (leads_pushWords s.call s.short _ hcode h.running h.alive hframes) fun m' hm' => ?_
  obtain ⟨t, rfl⟩ := hm'
  refine Simulates.pure (At.retick ?_ t)
  refine ⟨h.toAgrees.of_eq rfl rfl rfl rfl rfl rfl h.armed, ⟨locals, rfl, hbound⟩, ?_,
    (h.push hv).known, h.saved⟩
  rw [h.stack, OperandStack.pushAll_concat]
  rfl

theorem does_pop {v : Value} :
    Does s n [.plain .pop] (At s L armed (vs ++ [v]) cvs) (At s L armed vs cvs) := by
  refine .instr fun offset σ m h hlimit hnext => ?_
  refine ⟨_, step_pop hnext (h.pop? hlimit hnext (by simp [Instr.plain])), Simulates.pure ?_⟩
  exact (h.past _).shrink (by simp)

/-- The machine computes what the language means by the operation, and stops where it is undefined. -/
theorem follows_arithmetic {op : Opcode} {binary : BinaryOp} {a b : Value}
    (hop : op.binary? = some binary) :
    Follows s n [.plain op] (At s L armed (vs ++ [a] ++ [b]) cvs) (Eval.compute (some binary) a b)
      fun v => At s L armed (vs ++ [v]) cvs := by
  refine .instr fun offset σ m h hlimit hnext => ?_
  have hne : (Instr.plain op).op ≠ .push := by
    rintro rfl
    cases hop
  obtain ⟨hright, hleft⟩ := h.popTwo hlimit hnext hne
  refine ⟨_, step_arithmetic hnext hop hright hleft, ?_⟩
  cases happly : binary.apply a b with
  | some v =>
      have heval : Eval.compute (some binary) a b = pure v := by simp [Eval.compute, happly]
      rw [heval]
      exact Simulates.pure (((h.past _).shrink (by simp)).push (BinaryOp.known_apply happly))
  | none =>
      have heval : Eval.compute (some binary) a b = throw .divided := by
        simp [Eval.compute, happly]
      rw [heval]
      exact Leads.here ⟨rfl, rfl⟩

/-! ## Variables -/

/-- A variable that is known is read without an effect. -/
theorem read_eq {name : Text} {σ : Store} {v : Value} (h : σ.lookup? name = some v) :
    Eval.read name σ = .ok v σ := by
  simp [Eval.read, h]

/-- A value that is written takes the type of the variable. -/
theorem write_eq {name : Text} {σ : Store} {old : Value} (h : σ.lookup? name = some old)
    (v : Value) : Eval.write name v σ = .ok () (σ.assign name (v.convert old.type)) := by
  simp [Eval.write, h]

/-- The variable of a name is pushed, and the name still stands for it. -/
theorem pushVar_step {name : Text} {symbol : Symbol} {offset : Nat} {σ : Store} {m : Machine}
    (hu : Named u s.names) (hresolves : Resolves u Γ name symbol) (hnonneg : 0 ≤ symbol.id.toInt)
    (h : At s (Bound Γ) armed vs cvs offset σ m) (hnext : m.Next offset (.withWord .pushVar symbol.id)) :
    ∃ v m', σ.lookup? name = some v ∧ m.step = .ok m'
      ∧ At s (Bound Γ) armed (vs ++ [v]) cvs (offset + (Instr.withWord .pushVar symbol.id).size) σ m' := by
  have hnull : symbol.id ≠ Name.nullObject := by
    intro hid
    rw [hid] at hnonneg
    exact absurd hnonneg (by decide)
  have hattached : symbol.id ≠ Name.attachedObject := by
    intro hid
    rw [hid] at hnonneg
    exact absurd hnonneg (by decide)
  obtain ⟨v, hv, hlookup, hknown⟩ := h.lookup hu hresolves
  exact ⟨v, _, hv, step_pushVar hnext hnull hattached hlookup, (h.past _).push hknown⟩

/-- What is pushed is the value of the variable that the name resolves to, be it local or global. -/
theorem follows_pushVar {name : Text} {symbol : Symbol} (hu : Named u s.names)
    (hresolves : Resolves u Γ name symbol) (hnonneg : 0 ≤ symbol.id.toInt) :
    Follows s n [.withWord .pushVar symbol.id] (At s (Bound Γ) armed vs cvs) (Eval.read name)
      fun v offset σ m => At s (Bound Γ) armed (vs ++ [v]) cvs offset σ m ∧ σ.lookup? name = some v := by
  refine .instr fun offset σ m h _ hnext => ?_
  obtain ⟨v, m', hv, hstep, hpushed⟩ := pushVar_step hu hresolves hnonneg h hnext
  refine ⟨m', hstep, ?_⟩
  rw [read_eq hv]
  exact Leads.here ⟨hpushed, hv⟩

/-- A variable that has just been written or read is there and can be pushed again. -/
theorem does_pushVar {name : Text} {symbol : Symbol} {v : Value} (hu : Named u s.names)
    (hresolves : Resolves u Γ name symbol) (hnonneg : 0 ≤ symbol.id.toInt) :
    Does s n [.withWord .pushVar symbol.id]
      (fun offset σ m => At s (Bound Γ) armed vs cvs offset σ m ∧ σ.lookup? name = some v)
      (At s (Bound Γ) armed (vs ++ [v]) cvs) := by
  refine .of_step (fun _ _ _ h => h.1) (fun _ _ _ t h => ⟨h.1.retick t, h.2⟩) ?_
  rintro offset σ m ⟨h, hlookup⟩ _ hnext
  obtain ⟨v', m', hv, hstep, hpushed⟩ := pushVar_step hu hresolves hnonneg h hnext
  obtain rfl : v' = v := Option.some.inj (hv.symm.trans hlookup)
  exact ⟨m', hstep, Simulates.pure hpushed⟩

/-- Reading a variable takes no code where its value is not wanted. -/
theorem follows_unread {name : Text} {symbol : Symbol} (hu : Named u s.names)
    (hresolves : Resolves u Γ name symbol) :
    Follows s n [] (At s (Bound Γ) armed vs cvs) (Eval.read name) fun _ => At s (Bound Γ) armed vs cvs := by
  intro offset σ m _ h
  obtain ⟨v, hv, -, -⟩ := h.lookup hu hresolves
  rw [read_eq hv]
  exact Leads.here h

theorem follows_pushNull :
    Follows s n [.withWord .pushVar Name.nullObject] (At s (Bound Γ) armed vs cvs) (Eval.word .null)
      fun v => At s (Bound Γ) armed (vs ++ [v]) cvs :=
  .instr fun _ _ _ h _ hnext =>
    ⟨_, step_pushNull hnext, Simulates.pure ((h.past _).push rfl)⟩

theorem follows_pushAttached :
    Follows s n [.withWord .pushVar Name.attachedObject] (At s (Bound Γ) armed vs cvs)
      (Eval.word .attached) fun v => At s (Bound Γ) armed (vs ++ [v]) cvs := by
  refine .instr fun offset σ m h _ hnext => ⟨_, step_pushAttached hnext, ?_⟩
  rw [← h.attached]
  exact Leads.here ((h.past _).push rfl)

/-- The value on top goes into the variable that the name resolves to. -/
theorem follows_popVar {name : Text} {symbol : Symbol} {v : Value} (hu : Named u s.names)
    (hresolves : Resolves u Γ name symbol) :
    Follows s n [.withWord .popVar symbol.id] (At s (Bound Γ) armed (vs ++ [v]) cvs) (Eval.write name v)
      fun _ => At s (Bound Γ) armed vs cvs := by
  refine .instr fun offset σ m h hlimit hnext => ?_
  obtain ⟨old, hold, hlookup, hknown⟩ := h.lookup hu hresolves
  refine ⟨_, step_popVar hnext (h.pop? hlimit hnext (by simp [Instr.withWord])) hlookup, ?_⟩
  rw [write_eq hold]
  refine Leads.here (((h.past _).shrink (by simp)).assign hu hresolves ?_)
  rw [Value.type_convert hknown]
  exact hknown

/-- Data of the type that a variable has. -/
theorem follows_set {name : Text} {symbol : Symbol} {v : Value} (hu : Named u s.names)
    (hresolves : Resolves u Γ name symbol) :
    Follows s n [.set symbol.id v.data]
      (fun offset σ m => At s (Bound Γ) armed vs cvs offset σ m
        ∧ ∃ old, σ.lookup? name = some old ∧ old.type = v.type)
      (Eval.write name v) fun _ => At s (Bound Γ) armed vs cvs := by
  refine .of_step (fun _ _ _ h => h.1) (fun _ _ _ t h => ⟨h.1.retick t, h.2⟩) ?_
  rintro offset σ m ⟨h, old, hold, htype⟩ _ hnext
  obtain ⟨old', hold', hlookup, hknown⟩ := h.lookup hu hresolves
  obtain rfl : old' = old := Option.some.inj (hold'.symm.trans hold)
  refine ⟨_, step_set hnext hlookup, ?_⟩
  rw [write_eq hold, Value.convert_of_type htype.symm]
  have hdata : (⟨old'.type, v.data⟩ : Value) = v := by rw [htype]
  rw [hdata]
  exact Leads.here ((h.past _).assign hu hresolves (htype ▸ hknown))

/-- Allocation puts a new variable innermost in the scope, on both sides with the zero of its type. -/
theorem follows_allocate {size : UInt64} {type : VarType} {symbol : Symbol}
    (hid : symbol.id ∉ ids Γ) (htype : type.Storable) :
    Follows s n [.allocate size type symbol.id] (At s (Bound Γ) armed vs cvs)
      (modify (·.declare symbol.name (.zero type)))
      fun _ offset σ m => At s (Bound (Γ ++ [symbol])) armed vs cvs offset σ m
        ∧ ∃ old, σ.lookup? symbol.name = some old ∧ old.type = type := by
  refine .instr fun offset σ m h _ hnext => ⟨_, step_allocate hnext, Leads.here ?_⟩
  refine ⟨(h.past _).declare hid (Value.fills_zero htype).known, .zero type, ?_,
    (Value.fills_zero htype).type⟩
  simp [Store.lookup?, Store.declare, Table.get?]

/-- Freeing takes the innermost variable away again on both sides. -/
theorem follows_free {symbol : Symbol} :
    Follows s n [.withWord .free symbol.id] (At s (Bound (Γ ++ [symbol])) armed vs cvs)
      (modify fun σ => { σ with locals := σ.locals.drop 1 }) fun _ => At s (Bound Γ) armed vs cvs :=
  .instr fun _ _ _ h _ hnext => ⟨_, step_free hnext, Leads.here (h.past _).forget⟩

/-! ## The compare value -/

/-- Setting the flag arms the machine for the comparison that follows. -/
theorem steps_setFlag {offset : Nat} {σ : Store} {m : Machine} (h : At s L armed vs cvs offset σ m)
    (hcode : Placed s.call.function.code offset [.plain .setFlag]) :
    Steps (At s L true vs cvs (offset + 1) σ) m := by
  refine h.steps hcode fun t _ hnext => ⟨_, step_setFlag hnext, ?_⟩
  have hpast := (h.retick t).past (.plain .setFlag)
  exact ⟨⟨hpast.program, hpast.running, hpast.alive, hpast.globals, hpast.present, hpast.host,
    hpast.attached, fun _ => rfl⟩, hpast.frames, hpast.stack, hpast.known, hpast.saved⟩

/-- Nothing but the compare values has changed. -/
theorem At.recompare {offset : Nat} {σ : Store} {m : Machine} (h : At s L armed vs cvs offset σ m)
    (cvs' : List Bool) (cv : Bool) : Compared s L armed vs cvs' cv offset σ
      { m with savedCompares := cvs' ++ s.call.saved, compareValue := cv } :=
  ⟨⟨h.toAgrees.of_eq rfl rfl rfl rfl rfl rfl h.armed, h.frames, h.stack, h.known, rfl⟩, rfl⟩

theorem does_pushCompare {cv : Bool} :
    Does s n [.plain .pushCompare] (Compared s L armed vs cvs cv)
      (At s L armed (vs ++ [.ofBool cv]) cvs) := by
  refine .of_step (fun _ _ _ h => h.toAt) (fun _ _ _ t h => ⟨h.retick t, h.compare⟩) ?_
  intro offset σ m h _ hnext
  refine ⟨_, step_pushCompare hnext, Simulates.pure ?_⟩
  rw [h.compare]
  exact (h.past _).push rfl

theorem does_saveCompare {cv : Bool} :
    Does s n [.plain .saveCompare] (Compared s L armed vs cvs cv)
      (At s L armed vs (cv :: cvs)) := by
  refine .of_step (fun _ _ _ h => h.toAt) (fun _ _ _ t h => ⟨h.retick t, h.compare⟩) ?_
  intro offset σ m h _ hnext
  refine ⟨_, step_saveCompare hnext, Simulates.pure ?_⟩
  have hpast := h.past (.plain .saveCompare)
  exact ⟨hpast.toAgrees.of_eq rfl rfl rfl rfl rfl rfl hpast.armed, hpast.frames, hpast.stack,
    hpast.known, by simp [h.saved, h.compare]⟩

theorem does_restoreCompare {cv : Bool} :
    Does s n [.plain .restoreCompare] (At s L armed vs (cv :: cvs)) (At s L armed vs cvs) :=
  .instr fun _ _ _ h _ hnext => ⟨_, step_restoreCompare hnext h.saved,
    Simulates.pure ((h.past _).recompare cvs cv).toAt⟩

theorem does_combine {connective : Connective} {saved cv : Bool} :
    Does s n [.combine connective] (Compared s L armed vs (saved :: cvs) cv)
      (Compared s L armed vs cvs (connective.join saved cv)) := by
  refine .of_step (fun _ _ _ h => h.toAt) (fun _ _ _ t h => ⟨h.retick t, h.compare⟩) ?_
  intro offset σ m h _ hnext
  refine ⟨_, step_combine hnext h.saved, Simulates.pure ?_⟩
  rw [h.compare]
  exact (h.past _).recompare cvs _

theorem does_compare {relation : Relation} {a b : Value} :
    Does s n [.compare relation] (At s L armed (vs ++ [a] ++ [b]) cvs)
      (Compared s L armed vs cvs (relation.holds (a.order b))) := by
  refine .instr fun offset σ m h hlimit hnext => ?_
  obtain ⟨hright, hleft⟩ := h.popTwo hlimit hnext (by simp [Instr.compare, Instr.withWord])
  refine ⟨_, step_compare hnext hright hleft, Simulates.pure ?_⟩
  have hpast := (h.past (.compare relation)).shrink (w := vs) (by simp)
  exact ⟨⟨hpast.toAgrees.of_eq rfl rfl rfl rfl rfl rfl hpast.armed, hpast.frames, rfl, hpast.known,
    hpast.saved⟩, rfl⟩

/-! ## Objects -/

theorem follows_instantiate {v : Value} :
    Follows s n [.plain .instantiate] (At s L armed (vs ++ [v]) cvs) (Eval.object .instantiate v)
      fun result => At s L armed (vs ++ [result]) cvs := by
  refine .instr fun offset σ m h hlimit hnext => ?_
  have hpast := (h.past (.plain .instantiate)).shrink (w := vs) (by simp)
  refine ⟨_, step_instantiate hnext (h.pop? hlimit hnext (by simp [Instr.plain])), ?_⟩
  rw [← h.host]
  cases hreply : σ.host.instantiate v with
  | error e =>
      have heval : Eval.object .instantiate v σ = .ok (.ofHandle Name.nullObject.toInt) σ := by
        simp [Eval.object, hreply]
      rw [heval]
      exact Leads.here (hpast.push rfl)
  | ok reply =>
      obtain ⟨created, host⟩ := reply
      have heval : Eval.object .instantiate v σ
          = .ok (.ofHandle created.toInt) { σ with host } := by
        simp [Eval.object, hreply]
      rw [heval]
      refine Leads.here (At.push ?_ rfl)
      exact ⟨⟨hpast.program, hpast.running, hpast.alive, hpast.globals, hpast.present, rfl,
        hpast.attached, hpast.armed⟩, hpast.frames, rfl, hpast.known, hpast.saved⟩

theorem follows_ask {op : Opcode} {v : Value} (hop : op = .delete ∨ op = .attach ∨ op = .detach) :
    Follows s n [.plain op] (At s L armed (vs ++ [v]) cvs)
      (Eval.ask (askHost op (Int64.ofInt v.toInt)) (attachedBy op (Int64.ofInt v.toInt)))
      fun result => At s L armed (vs ++ [result]) cvs := by
  refine .instr fun offset σ m h hlimit hnext => ?_
  have hne : (Instr.plain op).op ≠ .push := by rcases hop with rfl | rfl | rfl <;> decide
  have hpast := (h.past (.plain op)).shrink (w := vs) (by simp)
  refine ⟨_, step_object hnext hop (h.pop? hlimit hnext hne), ?_⟩
  rw [← h.host, ← h.attached]
  cases hreply : askHost op (Int64.ofInt v.toInt) σ.host with
  | error e =>
      have heval : Eval.ask (askHost op (Int64.ofInt v.toInt))
          (attachedBy op (Int64.ofInt v.toInt)) σ = .ok .void σ := by
        simp [Eval.ask, hreply]
      rw [heval]
      exact Leads.here (hpast.push rfl)
  | ok host =>
      have heval : Eval.ask (askHost op (Int64.ofInt v.toInt))
          (attachedBy op (Int64.ofInt v.toInt)) σ = .ok .void { σ with
            host, attached := attachedBy op (Int64.ofInt v.toInt) σ.attached } := by
        simp [Eval.ask, hreply]
      rw [heval]
      refine Leads.here (At.push ?_ rfl)
      exact ⟨⟨hpast.program, hpast.running, hpast.alive, hpast.globals, hpast.present, rfl, rfl,
        hpast.armed⟩, hpast.frames, rfl, hpast.known, hpast.saved⟩

theorem follows_object {kind : TokenKind} {op : Opcode} {v : Value}
    (h : kind.objectOperation? = some op) :
    Follows s n [.plain op] (At s L armed (vs ++ [v]) cvs) (Eval.object kind v)
      fun result => At s L armed (vs ++ [result]) cvs := by
  cases kind with
  | instantiate =>
      cases h
      exact follows_instantiate
  | delete =>
      cases h
      exact follows_ask (.inl rfl)
  | attach =>
      cases h
      exact follows_ask (.inr (.inl rfl))
  | detach =>
      cases h
      exact follows_ask (.inr (.inr rfl))
  | _ => cases h

/-! ## What is wanted of an expression -/

/-- What a machine holds once an expression has been evaluated. -/
def Yields (s : Scene) (L : LocalsRel) (armed : Bool) (vs : List Value) (cvs : List Bool) :
    Want → Value → Nat → Store → Machine → Prop
  | .value, v => At s L armed (vs ++ [v]) cvs
  | .truth, v => Compared s L armed vs cvs v.truth
  | .effect, _ => At s L armed vs cvs

theorem Value.truth_ofBool (b : Bool) : (Value.ofBool b).truth = b := by
  cases b <;> decide

/-- Comparison with zero, as the sign and the inversion of a truth value use it. -/
theorem does_compareZero {relation : Relation} {v : Value} :
    Does s n (compareZero relation) (At s L armed (vs ++ [v]) cvs)
      (Compared s L armed vs cvs (relation.holds (v.order (.ofInt 0)))) :=
  Follows.prepend (does_literal rfl) does_compare

/-- Where only the truth of a value is asked, or nothing, code behind it turns one into the other. -/
theorem follows_fromValue {want : Want} {code : Code} {x : Eval Value}
    (h : Follows s n code (At s L armed vs cvs) x fun v => At s L armed (vs ++ [v]) cvs) :
    Follows s n (fromValue want code) (At s L armed vs cvs) x (Yields s L armed vs cvs want) := by
  cases want with
  | value => exact h
  | truth => exact h.append fun _ => does_compareZero
  | effect => exact h.append fun _ => does_pop

/-- The outcome of a comparison is pushed as a truth value where a value is asked. -/
theorem follows_fromTruth {want : Want} {code : Code} {x : Eval Bool}
    (h : Follows s n code (At s L armed vs cvs) x (Compared s L armed vs cvs)) :
    Follows s n (fromTruth want code) (At s L armed vs cvs) (Value.ofBool <$> x)
      (Yields s L armed vs cvs want) := by
  cases want with
  | value => exact (h.append fun _ => does_pushCompare).map fun _ _ _ _ h => h
  | truth =>
      refine h.map fun b offset σ m hm => ?_
      rwa [Yields, Value.truth_ofBool]
  | effect =>
      exact (h.append fun _ => Follows.prepend does_pushCompare does_pop).map fun _ _ _ _ h => h

/-! ## Operators -/

/-- Each arithmetic token has one opcode and one operation of the language, and they are the same. -/
theorem operation?_of_arithmetic {kind : TokenKind} {op : Opcode}
    (h : kind.arithmetic? = some op) :
    ∃ binary, op.binary? = some binary ∧ kind.operation? = some binary := by
  cases kind <;> first | cases h; exact ⟨_, rfl, rfl⟩ | cases h

/-- As for arithmetic tokens, but for the operators that assign as well. -/
theorem operation?_of_compound {kind : TokenKind} {op : Opcode} (h : kind.compound? = some op) :
    ∃ binary, op.binary? = some binary ∧ kind.operation? = some binary := by
  cases kind <;> first | cases h; exact ⟨_, rfl, rfl⟩ | cases h

/-- The code that changes a variable by one. -/
theorem follows_change {name : Text} {symbol : Symbol} {op : Opcode} {binary : BinaryOp} {v : Value}
    (hu : Named u s.names) (hresolves : Resolves u Γ name symbol) (hop : op.binary? = some binary) :
    Follows s n (literalCode (.ofInt 1) ++ [.plain op, .withWord .popVar symbol.id])
      (At s (Bound Γ) armed (vs ++ [v]) cvs)
      (do Eval.write name (← Eval.compute (some binary) v (.ofInt 1)))
      fun _ => At s (Bound Γ) armed vs cvs :=
  Follows.prepend (does_literal rfl)
    ((follows_arithmetic hop).cons fun _ => follows_popVar hu hresolves)

/-- The code of a step of a variable, for every want. -/
theorem follows_stepLayout {call : Text → List Value → Eval Value} {operator target : Token}
    {symbol : Symbol} {after : Bool} {want : Want} (hu : Named u s.names)
    (hresolves : Resolves u Γ target.text symbol) (hnonneg : 0 ≤ symbol.id.toInt) :
    Follows s n (stepLayout operator symbol.id after want) (At s (Bound Γ) armed vs cvs)
      (Eval.expr call (.step operator target after)) (Yields s (Bound Γ) armed vs cvs want) := by
  let binary : BinaryOp := if operator.kind = .decrement then .sub else .add
  let op : Opcode := if operator.kind = .decrement then .sub else .add
  have hop : op.binary? = some binary := by
    simp only [op, binary]
    split <;> rfl
  -- one reading, one change, and a second reading unless the old value counts
  have heval : Eval.expr call (.step operator target after) = Eval.read target.text >>= fun v =>
      (do Eval.write target.text (← Eval.compute (some binary) v (.ofInt 1))) >>= fun _ =>
        if after then pure v else Eval.read target.text := by
    simp only [Eval.expr, bind_assoc, binary]
  rw [heval]
  unfold stepLayout
  simp only [List.cons_append]
  -- the change alone, over whatever lies below the operand
  have hchange (vs : List Value) (v : Value) : Follows s n
      (literalCode (.ofInt 1) ++ [.plain op, .withWord .popVar symbol.id])
      (fun offset σ m => At s (Bound Γ) armed (vs ++ [v]) cvs offset σ m ∧ σ.lookup? target.text = some v)
      (do Eval.write target.text (← Eval.compute (some binary) v (.ofInt 1)))
      fun _ => At s (Bound Γ) armed vs cvs :=
    (follows_change hu hresolves hop).weaken fun _ _ _ h => h.1
  split
  · -- the result is not asked for: nothing stays on the stack
    next hwant =>
      subst hwant
      refine (follows_pushVar hu hresolves hnonneg).cons fun v => (hchange vs v).silent fun _ => ?_
      cases after with
      | true => exact .nil fun _ _ _ h => h
      | false => exact follows_unread hu hresolves
  · cases after with
    | true =>
        refine follows_fromValue ((follows_pushVar hu hresolves hnonneg).cons fun v => ?_)
        -- the old value stays below, a second copy of it is changed
        refine Follows.prepend (a := [_]) (does_pushVar hu hresolves hnonneg) ?_
        exact (follows_change hu hresolves hop).map fun _ _ _ _ h => h
    | false =>
        refine follows_fromValue ((follows_pushVar hu hresolves hnonneg).cons fun v => ?_)
        refine (hchange vs v).bind fun _ => ?_
        exact (follows_pushVar hu hresolves hnonneg).imp fun _ _ _ _ h => h.1

/-- An assignment evaluates, writes, and reads back where its value is asked for. -/
theorem follows_assignLayout {symbol : Symbol} {name : Text} {want : Want} {code : Code}
    {x : Eval Value} (hu : Named u s.names)
    (hresolves : Resolves u Γ name symbol) (hnonneg : 0 ≤ symbol.id.toInt)
    (h : Follows s n code (At s (Bound Γ) armed vs cvs) x fun v => At s (Bound Γ) armed (vs ++ [v]) cvs) :
    Follows s n (assignLayout symbol.id want code) (At s (Bound Γ) armed vs cvs)
      (do Eval.write name (← x); Eval.read name) (Yields s (Bound Γ) armed vs cvs want) := by
  unfold assignLayout
  split
  · next hwant =>
      subst hwant
      exact h.bind fun v =>
        (follows_popVar hu hresolves).silent fun _ => follows_unread hu hresolves
  · refine follows_fromValue (h.bind fun v => (follows_popVar hu hresolves).cons fun _ => ?_)
    exact (follows_pushVar hu hresolves hnonneg).imp fun _ _ _ _ h => h.1

/-! ## Expressions -/

/-- The calls of a unit are followed wherever they stand in the program. -/
def FollowsCalls (u : Tables) (names : List Text) (program : Program) (n : Nat)
    (call : Text → List Value → Eval Value) : Prop :=
  ∀ (s : Scene) (Γ : List Symbol) (armed : Bool) (vs args : List Value) (cvs : List Bool)
    (name : Text), s.names = names → s.program = program → CallSite u name args.length →
    Follows s n [.withWord .call (Name.id name)] (At s (Bound Γ) armed (vs ++ args) cvs) (call name args)
      fun v => At s (Bound Γ) armed (vs ++ [v]) cvs

/-- Code follows a piece of an expression from everywhere that its variables can be seen. -/
def ExprPiece.Followed (s : Scene) (n : Nat) (Γ : List Symbol)
    (call : Text → List Value → Eval Value) (code : Code) : ExprPiece → Prop
  | .one want e => ∀ armed vs cvs, Follows s n code (At s (Bound Γ) armed vs cvs) (Eval.expr call e)
      (Yields s (Bound Γ) armed vs cvs want)
  | .all args => ∀ armed vs cvs, Follows s n code (At s (Bound Γ) armed vs cvs) (Eval.exprs call args)
      fun values offset σ m => values.length = args.length
        ∧ At s (Bound Γ) armed (vs ++ values) cvs offset σ m

theorem follows_constant {v : Value} (hv : v.type.isKnown = true) :
    Follows s n (literalCode v) (At s (Bound Γ) armed vs cvs) (pure v)
      fun v => At s (Bound Γ) armed (vs ++ [v]) cvs := by
  refine Follows.const (?_ : Does s n _ _ (At s (Bound Γ) armed (vs ++ [v]) cvs))
  exact does_literal hv

/-- The code of a literal pushes the value that the evaluation gives it. -/
theorem follows_literal {e : Expr} {type : VarType} {v : Value} (h : e.literal type = .ok v) :
    Follows s n (literalCode v) (At s (Bound Γ) armed vs cvs) (Eval.literal e type)
      fun v => At s (Bound Γ) armed (vs ++ [v]) cvs := by
  have heval : Eval.literal e type = pure v := by simp only [Eval.literal, h]
  rw [heval]
  exact follows_constant (Expr.known_literal h)

section

variable {call : Text → List Value → Eval Value} {want : Want}

/-! Each of the following says how the code of one form follows, given the code of its parts. -/

/-- A minus is a subtraction from zero. -/
theorem followed_minus {operator : Token} {operand : Expr} {code : Code}
    (hkind : operator.kind = .minus) (hnumber : ∀ t, operand ≠ .number t)
    (ih : (ExprPiece.one .value operand).Followed s n Γ call code) :
    (ExprPiece.one want (.unary operator operand)).Followed s n Γ call
      (fromValue want (literalCode (.ofInt 0) ++ code ++ [.plain .sub])) := by
  intro armed vs cvs
  have heval : Eval.expr call (.unary operator operand)
      = Eval.expr call operand >>= Eval.compute (some .sub) (.ofInt 0) := by
    cases operand with
    | number t => exact absurd rfl (hnumber t)
    | _ => simp only [Eval.expr, hkind]
  rw [heval, List.append_assoc]
  exact follows_fromValue (Follows.prepend (does_literal rfl)
    ((ih armed (vs ++ [.ofInt 0]) cvs).bind fun _ => follows_arithmetic rfl))

/-- The complement is an exclusive or with all ones. -/
theorem followed_tilde {operator : Token} {operand : Expr} {code : Code}
    (hkind : operator.kind = .tilde) (ih : (ExprPiece.one .value operand).Followed s n Γ call code) :
    (ExprPiece.one want (.unary operator operand)).Followed s n Γ call
      (fromValue want (code ++ literalCode (.ofInt (-1)) ++ [.plain .xor])) := by
  intro armed vs cvs
  simp only [Eval.expr, hkind]
  rw [List.append_assoc]
  exact follows_fromValue ((ih armed vs cvs).bind fun _ =>
    Follows.prepend (does_literal rfl) (follows_arithmetic rfl))

/-- The negation of a truth value is a comparison with zero. -/
theorem followed_bang {operator : Token} {operand : Expr} {code : Code} (hkind : operator.kind = .bang)
    (ih : (ExprPiece.one .value operand).Followed s n Γ call code) :
    (ExprPiece.one want (.unary operator operand)).Followed s n Γ call
      (fromTruth want (code ++ compareZero .equal)) := by
  intro armed vs cvs
  have heval : Eval.expr call (.unary operator operand)
      = Value.ofBool <$> (fun v => !v.truth) <$> Eval.expr call operand := by
    simp only [Eval.expr, hkind, Functor.map_map, bind_pure_comp]
  rw [heval]
  refine follows_fromTruth (((ih armed vs cvs).append fun _ => does_compareZero).map ?_)
  intro v offset σ m h
  -- being equal to zero is what it means not to be true
  have hzero : Relation.holds .equal (v.order (.ofInt 0)) = !v.truth := by
    unfold Value.truth
    cases v.order (.ofInt 0) <;> rfl
  rwa [hzero] at h

/-- A plus leaves its operand as it is. -/
theorem followed_plus {operator : Token} {operand : Expr} {code : Code}
    (hminus : operator.kind ≠ .minus) (htilde : operator.kind ≠ .tilde) (hbang : operator.kind ≠ .bang)
    (ih : (ExprPiece.one .value operand).Followed s n Γ call code) :
    (ExprPiece.one want (.unary operator operand)).Followed s n Γ call (fromValue want code) := by
  intro armed vs cvs
  have heval : Eval.expr call (.unary operator operand) = Eval.expr call operand := by
    simp only [Eval.expr]
    split <;> first | contradiction | rfl
  rw [heval]
  exact follows_fromValue (ih armed vs cvs)

theorem followed_relation {operator : Token} {left right : Expr} {relation : Relation}
    {first second : Code} (hrelation : operator.kind.relation? = some relation)
    (hleft : (ExprPiece.one .value left).Followed s n Γ call first)
    (hright : (ExprPiece.one .value right).Followed s n Γ call second) :
    (ExprPiece.one want (.binary operator left right)).Followed s n Γ call
      (fromTruth want (first ++ second ++ [.compare relation])) := by
  intro armed vs cvs
  have heval : Eval.expr call (.binary operator left right) = Value.ofBool <$> (do
      let a ← Eval.expr call left
      let b ← Eval.expr call right
      return relation.holds (a.order b)) := by
    simp only [Eval.expr, Eval.combine, hrelation, map_bind, map_pure]
  rw [heval, List.append_assoc]
  exact follows_fromTruth ((hleft armed vs cvs).bind fun a =>
    (hright armed (vs ++ [a]) cvs).bind fun b => does_compare.const)

/-- The truth of the left side waits on the stack of comparisons while the right one is evaluated. -/
theorem followed_connective {operator : Token} {left right : Expr} {connective : Connective}
    {first second : Code} (hrelation : operator.kind.relation? = none)
    (hconnective : operator.kind.connective? = some connective)
    (hleft : (ExprPiece.one .truth left).Followed s n Γ call first)
    (hright : (ExprPiece.one .truth right).Followed s n Γ call second) :
    (ExprPiece.one want (.binary operator left right)).Followed s n Γ call
      (fromTruth want (first ++ [.plain .saveCompare] ++ second ++ [.combine connective])) := by
  intro armed vs cvs
  have heval : Eval.expr call (.binary operator left right) = Value.ofBool <$> (do
      let a ← Eval.expr call left
      let b ← Eval.expr call right
      return connective.join a.truth b.truth) := by
    cases connective <;>
      simp only [Eval.expr, Eval.combine, hrelation, hconnective, map_bind, map_pure, Connective.join]
  rw [heval, List.append_assoc]
  have hsaved : Follows s n (first ++ [.plain .saveCompare]) (At s (Bound Γ) armed vs cvs)
      (Eval.expr call left) fun a => At s (Bound Γ) armed vs (a.truth :: cvs) :=
    (hleft armed vs cvs).append fun _ => does_saveCompare
  exact follows_fromTruth (hsaved.bind fun a =>
    (hright armed vs (a.truth :: cvs)).bind fun b => does_combine.const)

theorem followed_arithmetic {operator : Token} {left right : Expr} {op : Opcode} {first second : Code}
    (hrelation : operator.kind.relation? = none) (hconnective : operator.kind.connective? = none)
    (hop : operator.kind.arithmetic? = some op)
    (hleft : (ExprPiece.one .value left).Followed s n Γ call first)
    (hright : (ExprPiece.one .value right).Followed s n Γ call second) :
    (ExprPiece.one want (.binary operator left right)).Followed s n Γ call
      (fromValue want (first ++ second ++ [.plain op])) := by
  intro armed vs cvs
  obtain ⟨binary, hbinary, hoperation⟩ := operation?_of_arithmetic hop
  simp only [Eval.expr, Eval.combine, hrelation, hconnective, hoperation]
  rw [List.append_assoc]
  exact follows_fromValue ((hleft armed vs cvs).bind fun a =>
    (hright armed (vs ++ [a]) cvs).bind fun b => follows_arithmetic hbinary)

theorem followed_assign {operator target : Token} {value : Expr} {symbol : Symbol} {code : Code}
    (hu : Named u s.names) (hcompound : operator.kind.compound? = none)
    (hresolves : Resolves u Γ target.text symbol) (hnonneg : 0 ≤ symbol.id.toInt)
    (ih : (ExprPiece.one .value value).Followed s n Γ call code) :
    (ExprPiece.one want (.assign operator target value)).Followed s n Γ call
      (assignLayout symbol.id want code) := by
  intro armed vs cvs
  have heval : Eval.expr call (.assign operator target value) = (do
      Eval.write target.text (← Eval.expr call value)
      Eval.read target.text) := by
    simp only [Eval.expr, hcompound]
  rw [heval]
  exact follows_assignLayout hu hresolves hnonneg (ih armed vs cvs)

/-- A compound assignment reads its target before the value is evaluated. -/
theorem followed_compound {operator target : Token} {value : Expr} {symbol : Symbol} {op : Opcode}
    {code : Code} (hu : Named u s.names) (hop : operator.kind.compound? = some op)
    (hresolves : Resolves u Γ target.text symbol) (hnonneg : 0 ≤ symbol.id.toInt)
    (ih : (ExprPiece.one .value value).Followed s n Γ call code) :
    (ExprPiece.one want (.assign operator target value)).Followed s n Γ call
      (assignLayout symbol.id want (.withWord .pushVar symbol.id :: code ++ [.plain op])) := by
  intro armed vs cvs
  obtain ⟨binary, hbinary, hoperation⟩ := operation?_of_compound hop
  have heval : Eval.expr call (.assign operator target value) = (do
      Eval.write target.text (← (do
        let before ← Eval.read target.text
        Eval.compute (some binary) before (← Eval.expr call value)))
      Eval.read target.text) := by
    simp only [Eval.expr, hop, hoperation, bind_assoc]
  rw [heval]
  refine follows_assignLayout hu hresolves hnonneg ?_
  rw [List.cons_append]
  refine (follows_pushVar hu hresolves hnonneg).cons fun v => ?_
  have hcompute : Follows s n (code ++ [.plain op]) (At s (Bound Γ) armed (vs ++ [v]) cvs)
      (Eval.expr call value >>= Eval.compute (some binary) v)
      fun result => At s (Bound Γ) armed (vs ++ [result]) cvs :=
    (ih armed (vs ++ [v]) cvs).bind fun _ => follows_arithmetic hbinary
  exact hcompute.weaken fun _ _ _ h => h.1

theorem followed_object {callee : Token} {arg : Expr} {op : Opcode} {code : Code}
    (hop : callee.kind.objectOperation? = some op)
    (ih : (ExprPiece.all [arg]).Followed s n Γ call code) :
    (ExprPiece.one want (.call callee [arg])).Followed s n Γ call
      (fromValue want (code ++ [.plain op])) := by
  intro armed vs cvs
  have heval : Eval.expr call (.call callee [arg])
      = Eval.exprs call [arg] >>= fun values => Eval.object callee.kind (values.headD .void) := by
    unfold Eval.expr
    simp only [hop, Eval.exprs, bind_assoc, pure_bind, List.headD]
  rw [heval]
  refine follows_fromValue ((ih armed vs cvs).bind fun values => ?_)
  rintro offset σ m hcode ⟨hlength, h⟩
  obtain ⟨v, rfl⟩ := List.length_eq_one_iff.mp hlength
  exact follows_object hop offset σ m hcode h

/-- A call of a function is followed if calls are, with the steps that the fuel allows. -/
theorem followed_call {callee : Token} {args : List Expr} {code : Code}
    (hcalls : FollowsCalls u s.names s.program n call) (hkind : callee.kind.objectOperation? = none)
    (hlisted : (callee.text, args.length) ∈ u.calls)
    (harity : ∀ f, u.functions.get? callee.text = some f → f.params.length = args.length)
    (hnamed : u.names.get? (Name.id callee.text) = some callee.text)
    (ih : (ExprPiece.all args).Followed s n Γ call code) :
    (ExprPiece.one want (.call callee args)).Followed s n Γ call
      (fromValue want (code ++ [.withWord .call (Name.id callee.text)])) := by
  intro armed vs cvs
  have heval : Eval.expr call (.call callee args) = Eval.exprs call args >>= call callee.text := by
    simp only [Eval.expr, hkind]
  rw [heval]
  refine follows_fromValue ((ih armed vs cvs).bind fun values => ?_)
  rintro offset σ m hcode ⟨hlength, h⟩
  have hsite : CallSite u callee.text values.length := hlength ▸ ⟨hlisted, harity, hnamed⟩
  exact hcalls s Γ armed vs values cvs callee.text rfl rfl hsite offset σ m hcode h

theorem followed_cons {e : Expr} {rest : List Expr} {first more : Code}
    (hfirst : (ExprPiece.one .value e).Followed s n Γ call first)
    (hrest : (ExprPiece.all rest).Followed s n Γ call more) :
    (ExprPiece.all (e :: rest)).Followed s n Γ call (first ++ more) := by
  intro armed vs cvs
  simp only [Eval.exprs]
  refine (hfirst armed vs cvs).bind fun v => ?_
  rw [bind_pure_comp]
  refine (hrest armed (vs ++ [v]) cvs).map ?_
  rintro values offset σ m ⟨hlength, h⟩
  exact ⟨by simp [hlength], by simpa using h⟩

end

/-- The code of an expression follows its evaluation. -/
theorem follows_exprCode {call : Text → List Value → Eval Value} {piece : ExprPiece} {code : Code}
    (h : ExprCode u Γ piece code) (hΓ : Nonnegative u Γ) (hu : Named u s.names)
    (hcalls : FollowsCalls u s.names s.program n call) : piece.Followed s n Γ call code := by
  -- the induction is on the layout of the code, not on the expression: the two agree constructor by
  -- constructor, and only the layout knows which of the shapes was taken
  induction h with
  | ident hresolves =>
      intro armed vs cvs
      simp only [Eval.expr]
      refine follows_fromValue ?_
      exact (follows_pushVar hu hresolves (hΓ.resolves hresolves)).imp fun _ _ _ _ h => h.1
  | number hliteral =>
      intro armed vs cvs
      simp only [Eval.expr]
      exact follows_fromValue (follows_literal hliteral)
  | string =>
      intro armed vs cvs
      simp only [Eval.expr]
      exact follows_fromValue (follows_constant rfl)
  | true_ hkind =>
      intro armed vs cvs
      simp only [Eval.expr, hkind]
      exact follows_fromValue (follows_constant rfl)
  | false_ hkind =>
      intro armed vs cvs
      simp only [Eval.expr, hkind]
      exact follows_fromValue (follows_constant rfl)
  | null hkind =>
      intro armed vs cvs
      simp only [Eval.expr, hkind]
      exact follows_fromValue follows_pushNull
  | attached hkind =>
      intro armed vs cvs
      simp only [Eval.expr, hkind]
      exact follows_fromValue follows_pushAttached
  | minusNumber hkind hliteral =>
      intro armed vs cvs
      simp only [Expr.literalType?, hkind] at hliteral
      simp only [Eval.expr, hkind]
      exact follows_fromValue (follows_literal hliteral)
  | minus hkind hnumber _ ih => exact followed_minus hkind hnumber ih
  | tilde hkind _ ih => exact followed_tilde hkind ih
  | bang hkind _ ih => exact followed_bang hkind ih
  | plus hminus htilde hbang _ ih => exact followed_plus hminus htilde hbang ih
  | step hresolves =>
      intro armed vs cvs
      exact follows_stepLayout hu hresolves (hΓ.resolves hresolves)
  | relation hrelation _ _ ihleft ihright => exact followed_relation hrelation ihleft ihright
  | connective hrelation hconnective _ _ ihleft ihright =>
      exact followed_connective hrelation hconnective ihleft ihright
  | arithmetic hrelation hconnective hop _ _ ihleft ihright =>
      exact followed_arithmetic hrelation hconnective hop ihleft ihright
  | assign hcompound hresolves _ ih =>
      exact followed_assign hu hcompound hresolves (hΓ.resolves hresolves) ih
  | compound hop hresolves _ ih => exact followed_compound hu hop hresolves (hΓ.resolves hresolves) ih
  | object hop _ ih => exact followed_object hop ih
  | call hkind hlisted harity hnamed _ ih => exact followed_call hcalls hkind hlisted harity hnamed ih
  | nil =>
      intro armed vs cvs
      simp only [Eval.exprs]
      refine .nil fun offset σ m h => ⟨rfl, ?_⟩
      rwa [List.append_nil]
  | cons _ _ ihfirst ihrest => exact followed_cons ihfirst ihrest

end Gen

end TickScript
