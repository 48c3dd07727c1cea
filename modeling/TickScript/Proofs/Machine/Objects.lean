import TickScript.Proofs.Machine.Instruction
import TickScript.Proofs.Machine.Lifetime
import TickScript.Proofs.OperandStack

/-!
# The attached object

Which object is attached is noted twice: by the machine, for the scripts, and by the store that keeps
the objects. `Machine.Served p given waiting m` are the machines of a program whose store is asked by
nobody else; `given` lists the handles that the script was given, the latest first. Everything but four
instructions leaves objects alone, and these four change both notes in the same way.

`Machine.attached_agrees` says so of every machine that is served: the notes agree on an object that
lives or on none, handles are given out in ascending order, and what the store refuses changes nothing.

The store is not modelled as part of the machine but as what the machine asks, with its own idea of
which object is attached. The agreement is thus a relation between two notes. For the operations
that change them it is proved by cases on what the store answers; for everything else by showing
that neither note is touched (`Sparing`), one lemma for each part of an instruction.
-/

namespace TickScript

/-! ## Objects left alone -/

namespace Machine

/-- The objects are as before. -/
structure SameObjects (m m' : Machine) : Prop where
  host : m'.host = m.host
  attached : m'.attached = m.attached

theorem SameObjects.refl (m : Machine) : m.SameObjects m := ⟨rfl, rfl⟩

/-- What spares the objects over two stretches spares them over both. -/
theorem SameObjects.trans {m m' m'' : Machine} (h : m.SameObjects m') (h' : m'.SameObjects m'') :
    m.SameObjects m'' := ⟨h'.host.trans h.host, h'.attached.trans h.attached⟩

theorem sameObjects_mapFrame (m : Machine) (change : Frame → Frame) :
    m.SameObjects (m.mapFrame change) := by
  obtain ⟨frames, heq⟩ := exists_mapFrame_eq m change
  rw [heq]
  exact ⟨rfl, rfl⟩

theorem sameObjects_assign (m : Machine) (id : Id) (v : Value) : m.SameObjects (m.assign id v) := by
  rw [assign]
  split
  · exact sameObjects_mapFrame m _
  · exact ⟨rfl, rfl⟩

theorem sameObjects_hear (m : Machine) (id : Id) (reply : Reply) : m.SameObjects (m.hear id reply) := by
  simp only [hear]
  split
  · exact ⟨rfl, rfl⟩
  · exact ⟨rfl, rfl⟩

theorem sameObjects_answer (m : Machine) (start : Int) (below : OperandStack) (a : Answer) :
    m.SameObjects (m.answer start below a) := by
  cases a with
  | failed => exact ⟨rfl, rfl⟩
  | done result => exact ⟨rfl, rfl⟩
  | pending => exact (sameObjects_mapFrame m _).trans ⟨rfl, rfl⟩

end Machine

namespace Exec

open Machine

variable {α β : Type}

/-- A part of an instruction has ended with the objects as before. -/
def Spares (m : Machine) : EStateM.Result Stop Machine α → Prop
  | .ok _ m' => m.SameObjects m'
  | .error _ m' => m.SameObjects m'

/-- A part of an instruction that has nothing to do with objects. -/
def Sparing (x : Exec α) : Prop := ∀ m : Machine, Spares m (x m)

theorem sparing_pure (a : α) : Sparing (pure a : Exec α) := fun m => .refl m

theorem Spares.after {m x : Machine} {r : EStateM.Result Stop Machine α} (hr : Spares x r)
    (h : m.SameObjects x) : Spares m r := by
  cases r with
  | ok a m' => exact h.trans hr
  | error stop m' => exact h.trans hr

/-- Actions that spare the objects spare them one behind the other. -/
theorem sparing_bind {x : Exec α} {f : α → Exec β} (hx : Sparing x) (hf : ∀ a, Sparing (f a)) :
    Sparing (x >>= f) := by
  intro m
  have hm := hx m
  rw [run_bind]
  cases hrun : x m with
  | error stop m' =>
      rw [hrun] at hm
      exact hm
  | ok a m' =>
      rw [hrun] at hm
      exact (hf a m').after hm

/-- Whatever leaves host and attached object alone is sparing. -/
theorem sparing_modify {f : Machine → Machine} (hf : ∀ m : Machine, m.SameObjects (f m)) :
    Sparing (modify f : Exec PUnit) := fun m => hf m

theorem sparing_kill (code : KillCode) : Sparing (kill code : Exec α) := fun _ => ⟨rfl, rfl⟩

theorem sparing_push (v : Value) : Sparing (push v) := sparing_modify fun _ => ⟨rfl, rfl⟩

theorem sparing_pop : Sparing pop := by
  intro m
  rw [run_pop]
  split
  · exact ⟨rfl, rfl⟩
  · exact ⟨rfl, rfl⟩

theorem sparing_popCompare : Sparing popCompare := by
  intro m
  rw [run_popCompare]
  split
  · exact ⟨rfl, rfl⟩
  · exact ⟨rfl, rfl⟩

theorem sparing_pushVariable (id : Id) : Sparing (pushVariable id) := by
  intro m
  rw [run_pushVariable]
  split
  · exact ⟨rfl, rfl⟩
  · split
    · exact ⟨rfl, rfl⟩
    · split
      · exact ⟨rfl, rfl⟩
      · exact ⟨rfl, rfl⟩

theorem sparing_update (id : Id) (f : Value → Value) : Sparing (update id f) := by
  intro m
  rw [run_update]
  split
  · exact ⟨rfl, rfl⟩
  · exact sameObjects_assign m id _

theorem sparing_arithmetic (op : BinaryOp) : Sparing (arithmetic op) := by
  refine sparing_bind sparing_pop fun b => sparing_bind sparing_pop fun a => ?_
  split
  · exact sparing_kill _
  · exact sparing_push _

theorem sparing_jump (conditional : Bool) (target : Int → Int) : Sparing (jump conditional target) := by
  refine sparing_modify fun m => ?_
  split
  · exact sameObjects_mapFrame m _
  · exact .refl m

theorem sparing_call (start : Int) (id : Id) : Sparing (call start id) := by
  intro m
  rw [run_call]
  cases m.program.functions.get? id with
  | some function => exact ⟨rfl, rfl⟩
  | none =>
      cases m.natives.get? id with
      | none => exact ⟨rfl, rfl⟩
      | some native =>
          simp only
          cases m.stack.popMany? native.arity with
          | none => exact ⟨rfl, rfl⟩
          | some taken =>
              have hheard := sameObjects_hear m id (replyTo native id taken.1 m)
              simp only
              split
              · exact hheard.trans ⟨rfl, rfl⟩
              · exact hheard.trans ((sameObjects_mapFrame _ _).trans ⟨rfl, rfl⟩)
              · exact hheard.trans ⟨rfl, rfl⟩

theorem sparing_ret : Sparing ret := by
  intro m
  cases hframes : m.frames with
  | nil => simp [ret, hframes, Spares, SameObjects.refl]
  | cons f frames =>
      have hover : Sparing (handOver f.function.returnType) := by
        unfold handOver
        split
        · exact sparing_pure _
        · exact sparing_bind sparing_pop fun _ => sparing_push _
      have hfinish : Sparing finish :=
        sparing_bind sparing_pop fun _ => sparing_modify fun _ => ⟨rfl, rfl⟩
      have hrest : Sparing (handOver f.function.returnType
          >>= fun _ => if frames.isEmpty then finish else pure ()) := by
        refine sparing_bind hover fun _ => ?_
        split
        · exact hfinish
        · exact sparing_pure _
      rw [run_ret hframes]
      exact (hrest (m.leave f frames)).after ⟨rfl, rfl⟩

/-- An operation that does not ask the host leaves objects alone. -/
theorem sparing_act (start : Int) (i : Instr) (hop : i.op.asksHost = false) : Sparing (act start i) := by
  obtain ⟨op, operands, data⟩ := i
  cases op
  case instantiate | delete | attach | detach => cases hop
  case pushVar => exact sparing_pushVariable _
  case popVar => exact sparing_bind sparing_pop fun _ => sparing_update _ _
  case set => exact sparing_update _ _
  case mod | div | mul | sub | add | and | or | xor | shiftLeft | shiftRight =>
    exact sparing_arithmetic _
  case compare =>
    exact sparing_bind sparing_pop fun _ => sparing_bind sparing_pop fun _ =>
      sparing_modify fun _ => ⟨rfl, rfl⟩
  case combine => exact sparing_bind sparing_popCompare fun _ => sparing_modify fun _ => ⟨rfl, rfl⟩
  case restoreCompare =>
    exact sparing_bind sparing_popCompare fun _ => sparing_modify fun _ => ⟨rfl, rfl⟩
  case allocate => exact sparing_modify fun m => sameObjects_mapFrame m _
  case free => exact sparing_modify fun m => sameObjects_mapFrame m _
  case pop => exact sparing_bind sparing_pop fun _ => sparing_pure _
  case pushCompare => exact fun m => sparing_push _ m
  case jump | jumpBy | jumpIf | jumpIfBy =>
    simp only [act]
    exact sparing_jump _ _
  case call => exact sparing_call _ _
  case ret => exact sparing_ret
  case kill => exact sparing_kill _
  case nop => exact sparing_pure _
  all_goals exact sparing_modify fun _ => ⟨rfl, rfl⟩

end Exec

namespace Machine

variable {m m' past : Machine} {i : Instr} {arg : Value} {below : OperandStack}

/-- Reading an instruction spares them. -/
theorem sameObjects_of_read (h : Exec.read m = .ok i past) : m.SameObjects past := by
  obtain ⟨ip, rfl⟩ := exists_goto_of_read h
  exact sameObjects_mapFrame m _

end Machine

/-- The handle that a value stands for. -/
def Value.handle (v : Value) : Handle := Int64.ofInt v.toInt

namespace Machine

variable {m m' past : Machine} {i : Instr} {arg : Value} {below : OperandStack}

/-! ## Requests -/

/-- The next instruction asks the host about a value. -/
structure Asks (m : Machine) (i : Instr) (arg : Value) (below : OperandStack) : Prop where
  read : ∃ past, Exec.read m = .ok i past ∧ past.stack.pop? = some (arg, below)
  asksHost : i.op.asksHost = true

/-- What is asked is what the instruction says that is read. -/
theorem Asks.eq_of_read (h : m.Asks i arg below) (i' : Instr) (hread : Exec.read m = .ok i' past) :
    i = i' := by
  obtain ⟨past', hread', -⟩ := h.read
  rw [hread] at hread'
  cases hread'
  rfl

/-- The three requests about an object that exists. -/
theorem Asks.op_cases (h : m.Asks i arg below) (hop : i.op ≠ .instantiate) :
    i.op = .delete ∨ i.op = .attach ∨ i.op = .detach := by
  have hhost := h.asksHost
  cases hname : i.op <;> simp_all [Opcode.asksHost]

/-- A step that asks nothing leaves objects alone. -/
theorem sameObjects_step (hstep : m.step = .ok m') (hasks : ∀ i arg below, ¬ m.Asks i arg below) :
    m.SameObjects m' := by
  rcases step_cases m with hfails | ⟨ip, code, hkilled⟩ | ⟨i, ip, next, hread, hnext, -⟩
  · rw [hfails] at hstep
    cases hstep
  · obtain rfl := Except.ok.inj (hkilled.symm.trans hstep)
    exact (sameObjects_mapFrame m _).trans ⟨rfl, rfl⟩
  · have hpast : m.SameObjects (m.goto ip) := sameObjects_mapFrame m _
    have hsettled : settle (Exec.act m.place i (m.goto ip)) = .ok m' := by
      rw [← hstep, step_eq, Exec.run_bind, hread]
    have hacts : Exec.Spares (m.goto ip) (Exec.act m.place i (m.goto ip)) := by
      by_cases hhost : i.op.asksHost = true
      · -- there is no value to ask about
        cases hpop : (m.goto ip).stack.pop? with
        | some top => exact absurd ⟨⟨_, hread, hpop⟩, hhost⟩ (hasks i top.1 top.2)
        | none =>
            obtain ⟨op, operands, data⟩ := i
            cases op
            case instantiate =>
              simp only [Exec.act, Exec.execute, Exec.run_instantiate, hpop]
              exact ⟨rfl, rfl⟩
            case delete | attach | detach =>
              simp only [Exec.act, Exec.execute, Exec.run_withObject, hpop]
              exact ⟨rfl, rfl⟩
            all_goals cases hhost
      · exact Exec.sparing_act _ i (by simpa using hhost) _
    apply hpast.trans
    cases hrun : Exec.act m.place i (m.goto ip) with
    | ok _ next =>
        rw [hrun] at hsettled hacts
        exact Except.ok.inj hsettled ▸ hacts
    | error stop next =>
        rw [hrun] at hsettled hacts
        cases stop with
        | killed => exact Except.ok.inj hsettled ▸ hacts
        | unaddressable => cases hsettled

/-- Creating an object leaves its handle, or the null handle if the host creates none. -/
theorem Asks.step_instantiate (h : m.Asks i arg below) (hop : i.op = .instantiate) :
    ∃ m', m.step = .ok m' ∧ m'.attached = m.attached ∧ match m.host.instantiate arg with
      | .ok (handle, host) => m'.stack = below.push (.ofHandle handle.toInt) ∧ m'.host = host
      | .error _ => m'.stack = below.push (.ofHandle Name.nullObject.toInt) ∧ m'.host = m.host := by
  obtain ⟨past, hread, hpop⟩ := h.read
  have hsame := sameObjects_of_read hread
  have hact : Exec.act m.place i = Exec.instantiate := by simp only [Exec.act, hop, Exec.execute]
  rw [step_eq, Exec.run_bind, hread, ← hsame.host]
  simp only [hact, Exec.run_instantiate, hpop]
  cases past.host.instantiate arg with
  | ok created => exact ⟨_, rfl, hsame.attached, rfl, rfl⟩
  | error e => exact ⟨_, rfl, hsame.attached, rfl, rfl⟩

/-- Any other request leaves void, and nothing has happened if the host refuses it. -/
theorem Asks.step_request (h : m.Asks i arg below) (hop : i.op ≠ .instantiate) :
    ∃ m', m.step = .ok m' ∧ m'.stack = below.push .void ∧ match askHost i.op arg.handle m.host with
      | .ok host => m'.host = host ∧ m'.attached = attachedBy i.op arg.handle m.attached
      | .error _ => m.SameObjects m' := by
  obtain ⟨past, hread, hpop⟩ := h.read
  have hsame := sameObjects_of_read hread
  have hact : Exec.act m.place i = Exec.withObject (askHost i.op) (attachedBy i.op) := by
    rcases h.op_cases hop with hname | hname | hname
    all_goals
      simp only [Exec.act, hname, Exec.execute]
      rfl
  rw [step_eq, Exec.run_bind, hread, ← hsame.host, ← hsame.attached]
  simp only [hact, Exec.run_withObject, hpop, Value.handle]
  cases askHost i.op (Int64.ofInt arg.toInt) past.host with
  | ok host => exact ⟨_, rfl, rfl, rfl, rfl⟩
  | error e => exact ⟨_, rfl, rfl, hsame.trans ⟨rfl, rfl⟩⟩

end Machine

/-! ## The store -/

namespace ObjectStore

/-- What a store refuses: to delete or attach an object that does not live, and to detach one that is
not attached. -/
def Refuses (s : ObjectStore) (op : Opcode) (handle : Handle) : Prop :=
  if op = .detach then s.attached ≠ handle else s.objects.has handle = false

/-- A store that has given out some handles, the latest first. -/
structure Sound (s : ObjectStore) (given : List Handle) : Prop where
  /-- The handles are counted. -/
  last : s.last.toInt = given.length
  /-- Those that were given lie above zero, and none is above the last one. -/
  bounds : ∀ handle ∈ given, 0 < handle.toInt ∧ handle.toInt ≤ s.last.toInt
  /-- Each is above those given before it. -/
  ascending : given.Pairwise fun later earlier => earlier < later
  /-- Every object that lives was given to the script. -/
  live : ∀ handle, s.objects.has handle = true → handle ∈ given
  /-- An attached object lives. -/
  attached : s.attached = Name.nullObject ∨ s.objects.has s.attached = true

variable {s : ObjectStore} {given : List Handle} {op : Opcode} {handle : Handle}

/-- A new store has given nothing out. -/
theorem sound_new : ObjectStore.Sound {} [] := by
  constructor <;> simp [Table.has]

/-- The null handle is no object. -/
theorem Sound.null_dead (h : s.Sound given) : s.objects.has Name.nullObject = false := by
  rw [← Bool.not_eq_true]
  intro hlive
  obtain ⟨hpositive, -⟩ := h.bounds _ (h.live _ hlive)
  exact absurd hpositive (by decide)

/-- As long as handles do not run out, the next one is above all that were given. -/
theorem Sound.next (h : s.Sound given) (hfew : given.length + 1 < 2 ^ 63) :
    (s.last + 1).toInt = s.last.toInt + 1 := by
  have hlast := h.last
  rw [Int64.toInt_add, Int64.toInt_one, Int.bmod_def]
  split <;> omega

/-- The next handle is greater than all before it. -/
theorem Sound.lt_next (h : s.Sound given) (hfew : given.length + 1 < 2 ^ 63) :
    ∀ earlier ∈ given, earlier < s.last + 1 := by
  intro earlier hearlier
  obtain ⟨-, hle⟩ := h.bounds earlier hearlier
  rw [Int64.lt_iff_toInt_lt, h.next hfew]
  omega

/-- A handle that is given out joins the others. -/
theorem Sound.instantiate (h : s.Sound given) (hfew : given.length + 1 < 2 ^ 63) (arg : Value) :
    (s.instantiate arg).2.Sound ((s.instantiate arg).1 :: given) := by
  have hnext := h.next hfew
  have hlast := h.last
  constructor
  case last =>
    simp only [ObjectStore.instantiate, hnext, hlast, List.length_cons]
    omega
  case bounds =>
    intro handle hhandle
    simp only [ObjectStore.instantiate, List.mem_cons] at hhandle ⊢
    rw [hnext]
    rcases hhandle with rfl | hhandle
    · rw [hnext]
      omega
    · have hbounds := h.bounds handle hhandle
      omega
  case ascending => exact List.pairwise_cons.2 ⟨h.lt_next hfew, h.ascending⟩
  case live =>
    intro handle hlive
    rcases (Table.has_set _ _ _ _).1 hlive with rfl | hlive
    · exact List.mem_cons_self
    · exact List.mem_cons_of_mem _ (h.live handle hlive)
  case attached =>
    exact h.attached.imp_right fun hlive => (Table.has_set _ _ _ _).2 (.inr hlive)

/-- A refused request is an error of the host. -/
theorem askHost_of_refuses (hop : op = .delete ∨ op = .attach ∨ op = .detach)
    (h : s.Refuses op handle) : ∃ e, Machine.askHost op handle (.memory s) = .error e := by
  rcases hop with rfl | rfl | rfl
  · have hdead : s.objects.has handle = false := h
    exact ⟨.noObject handle, by simp [Machine.askHost, Host.delete, ObjectStore.delete, hdead, Except.map]⟩
  · have hdead : s.objects.has handle = false := h
    exact ⟨.noObject handle, by simp [Machine.askHost, Host.attach, ObjectStore.attach, hdead, Except.map]⟩
  · have hother : s.attached ≠ handle := h
    exact ⟨.notAttached handle,
      by simp [Machine.askHost, Host.detach, ObjectStore.detach, hother, Except.map]⟩

/-- What a store grants, it notes as the machine does. -/
theorem askHost_of_grants (given : List Handle) (hop : op = .delete ∨ op = .attach ∨ op = .detach)
    (h : ¬ s.Refuses op handle) : ∃ s', Machine.askHost op handle (.memory s) = .ok (.memory s')
      ∧ s'.attached = Machine.attachedBy op handle s.attached
      ∧ (s.Sound given → s'.Sound given) := by
  rcases hop with rfl | rfl | rfl
  · have hlive : s.objects.has handle = true := by simpa [Refuses] using h
    refine ⟨_, by simp only [Machine.askHost, Host.delete, ObjectStore.delete, hlive, if_true]; rfl,
      rfl, fun hs => ?_⟩
    refine ⟨hs.last, hs.bounds, hs.ascending, fun other hother => ?_, ?_⟩
    · exact hs.live other ((Table.has_erase _ _ _).1 hother).2
    · by_cases hattached : s.attached = handle
      · left
        simp [hattached]
      · -- the attached object is another one, and lives on
        simp only [hattached, if_false]
        exact hs.attached.imp_right fun hother => (Table.has_erase _ _ _).2 ⟨hattached, hother⟩
  · have hlive : s.objects.has handle = true := by simpa [Refuses] using h
    exact ⟨{ s with attached := handle },
      by simp only [Machine.askHost, Host.attach, ObjectStore.attach, hlive, if_true]; rfl, rfl,
      fun hs => ⟨hs.last, hs.bounds, hs.ascending, hs.live, .inr hlive⟩⟩
  · have hattached : s.attached = handle := by simpa [Refuses] using h
    exact ⟨{ s with attached := Name.nullObject },
      by simp only [Machine.askHost, Host.detach, ObjectStore.detach, hattached, if_true]; rfl, rfl,
      fun hs => ⟨hs.last, hs.bounds, hs.ascending, hs.live, .inl rfl⟩⟩

end ObjectStore

namespace Machine

variable {p : Program} {given : List Handle} {n : Nat} {m m' : Machine} {i : Instr} {arg : Value}
  {below : OperandStack} {handle : Handle}

/-! ## Machines that are served -/

/-- A step creates an object, and the script is given its handle. -/
structure Creates (m : Machine) (handle : Handle) (m' : Machine) : Prop where
  asks : ∃ i arg below, m.Asks i arg below ∧ i.op = .instantiate
    ∧ m'.stack = below.push (.ofHandle handle.toInt)
  step : m.step = .ok m'

/-- The machines of a program, each with a store that nobody else asks and with the handles that the
script was given, the latest first. Natives are code outside, which finds the machine in the middle of
an instruction (`waiting` such instructions wait for an answer) and may do all of this to it. -/
inductive Served (p : Program) : (given : List Handle) → (waiting : Nat) → Machine → Prop
  | new : Served p [] 0 (ofProgram p)
  /-- Natives are registered, and what natives remember changes. -/
  | equip {given : List Handle} {n : Nat} {m : Machine} (natives : Table Id Native)
      (nativeCalls : Table Id Nat) (budget : Int) (printed : List Text) : Served p given n m →
      Served p given n { m with natives, nativeCalls, budget, printed }
  | call {given : List Handle} {n : Nat} {m m' : Machine} {id : Id} {args : List Value} :
      Served p given n m → m.callId id args = .ok m' → Served p given n m'
  | setField {given : List Handle} {n : Nat} {m m' : Machine} {name : Text} {v : Value} :
      Served p given n m → m.setField name v = .ok m' → Served p given n m'
  | kill {given : List Handle} {n : Nat} {m : Machine} (code : KillCode) : Served p given n m →
      Served p given n (m.kill code)
  /-- A tick begins. -/
  | wake {given : List Handle} {n : Nat} {m : Machine} : Served p given n m →
      m.state.isBusy = true → Served p given n { m with ticks := m.ticks + 1, state := .running }
  /-- A tick notices that the machine was killed. -/
  | halt {given : List Handle} {n : Nat} {m : Machine} : Served p given n m → m.state = .running →
      m.killFlag = true → Served p given n { m with state := .killed }
  /-- A tick carries out an instruction that calls no native and creates no object. -/
  | step {given : List Handle} {n : Nat} {m m' : Machine} : Served p given n m → m.Ready →
      (∀ id native arguments below past, ¬ m.AsksNative id native arguments below past) →
      (∀ i arg below, m.Asks i arg below → i.op ≠ .instantiate) → m.step = .ok m' →
      Served p given n m'
  /-- A tick carries out an instruction that creates an object. -/
  | create {given : List Handle} {n : Nat} {m m' : Machine} {handle : Handle} :
      Served p given n m → m.Ready → m.Creates handle m' → Served p (handle :: given) n m'
  /-- A native is called, and its code runs. -/
  | enter {given : List Handle} {n : Nat} {m past : Machine} {id : Id} {native : Native}
      {arguments : List Value} {below : OperandStack} : Served p given n m → m.Ready →
      m.AsksNative id native arguments below past → Served p given (n + 1) past
  /-- A native answers a machine that need not be as the native found it. -/
  | answer {given : List Handle} {n : Nat} {m : Machine} (start : Int) (below : OperandStack)
      (a : Answer) : Served p given (n + 1) m → Served p given n (m.answer start below a)

/-- The store and the machine agree on the attached object. -/
def Agrees (m : Machine) (given : List Handle) : Prop :=
  ∃ store : ObjectStore, m.host = .memory store ∧ m.attached = store.attached ∧ store.Sound given

/-- The agreement is about host and attached object only. -/
theorem Agrees.of_same (h : m.Agrees given) (hsame : m.SameObjects m') : m'.Agrees given := by
  obtain ⟨store, hhost, hattached, hsound⟩ := h
  exact ⟨store, hsame.host.trans hhost, hsame.attached.trans hattached, hsound⟩

/-- Creating an object gives a handle above all earlier ones. -/
theorem Agrees.instantiate (h : m.Agrees given) (hfew : given.length + 1 < 2 ^ 63)
    (hasks : m.Asks i arg below) (hop : i.op = .instantiate) :
    ∃ handle m', m.step = .ok m' ∧ m'.stack = below.push (.ofHandle handle.toInt)
      ∧ (∀ earlier ∈ given, earlier < handle) ∧ m'.Agrees (handle :: given) := by
  obtain ⟨store, hhost, hattached, hsound⟩ := h
  obtain ⟨m', hstep, hsame, hcreated⟩ := hasks.step_instantiate hop
  rw [hhost] at hcreated
  obtain ⟨hstack, hhost'⟩ := hcreated
  exact ⟨store.last + 1, m', hstep, hstack, hsound.lt_next hfew, _, hhost',
    hsame.trans hattached, hsound.instantiate hfew arg⟩

/-- A request other than for a new object is granted or refused, by both notes alike. -/
theorem Agrees.request (h : m.Agrees given) (hasks : m.Asks i arg below) (hop : i.op ≠ .instantiate)
    (hstep : m.step = .ok m') : m'.Agrees given := by
  obtain ⟨store, hhost, hattached, hsound⟩ := h
  obtain ⟨next, hnext, -, hanswer⟩ := hasks.step_request hop
  obtain rfl := Except.ok.inj (hnext.symm.trans hstep)
  have hops := hasks.op_cases hop
  rw [hhost] at hanswer
  by_cases hrefuses : store.Refuses i.op arg.handle
  · obtain ⟨e, he⟩ := ObjectStore.askHost_of_refuses hops hrefuses
    rw [he] at hanswer
    exact Agrees.of_same ⟨store, hhost, hattached, hsound⟩ hanswer
  · obtain ⟨store', he, hagain, hsound'⟩ := ObjectStore.askHost_of_grants given hops hrefuses
    rw [he] at hanswer
    obtain ⟨hhost', hattached'⟩ := hanswer
    exact ⟨store', hhost', by rw [hattached', hattached, hagain], hsound' hsound⟩

/-- A value tells which handle it stands for, and so does a stack that it lies on. -/
theorem eq_of_push_ofHandle {a b : Handle} {s : OperandStack}
    (h : s.push (.ofHandle a.toInt) = s.push (.ofHandle b.toInt)) : a = b := by
  have hpop (handle : Handle) : (s.push (.ofHandle handle.toInt)).pop?
      = some (.ofHandle handle.toInt, s) :=
    OperandStack.pop?_push_poppable ⟨rfl, by simp [Value.ofHandle, OperandStack.maxValueSize]⟩ s
  have hvalue : Value.ofHandle a.toInt = Value.ofHandle b.toInt := by
    have hpops := (hpop a).symm.trans ((congrArg OperandStack.pop? h).trans (hpop b))
    exact (Prod.mk.inj (Option.some.inj hpops)).1
  have hwhole (handle : Handle) : (Value.ofHandle handle.toInt).toInt = handle.toInt := by
    rw [Value.toInt_ofHandle]
    exact Int64.toInt_ofInt.symm.trans (congrArg Int64.toInt (Int64.ofInt_toInt handle))
  apply Int64.toInt.inj
  rw [← hwhole a, hvalue, hwhole b]

/-- In every machine that is served the notes agree. -/
theorem Served.agrees (h : Served p given n m) (hfew : given.length < 2 ^ 63) : m.Agrees given := by
  induction h with
  | new => exact ⟨{}, rfl, rfl, ObjectStore.sound_new⟩
  | equip _ _ _ _ _ ih => exact (ih hfew).of_same ⟨rfl, rfl⟩
  | call _ hcall ih =>
      obtain ⟨stack, frames, rfl⟩ := exists_callId_eq hcall
      exact (ih hfew).of_same ⟨rfl, rfl⟩
  | setField _ hset ih =>
      obtain ⟨id, old, -, rfl⟩ := exists_setField_eq hset
      exact (ih hfew).of_same ⟨rfl, rfl⟩
  | kill _ _ ih => exact (ih hfew).of_same ⟨rfl, rfl⟩
  | wake _ _ ih => exact (ih hfew).of_same ⟨rfl, rfl⟩
  | halt _ _ _ ih => exact (ih hfew).of_same ⟨rfl, rfl⟩
  -- a step that asks the store, and one that does not
  | @step _ _ m _ _ _ _ hother hstep ih =>
      by_cases hasks : ∃ i arg below, m.Asks i arg below
      · obtain ⟨i, arg, below, hasks⟩ := hasks
        exact (ih hfew).request hasks (hother _ _ _ hasks) hstep
      · refine (ih hfew).of_same (sameObjects_step hstep ?_)
        intro i arg below h
        exact hasks ⟨i, arg, below, h⟩
  -- a new object, whose handle is above all that were given
  | create _ _ hcreates ih =>
      obtain ⟨i, arg, below, hasks, hop, hstack⟩ := hcreates.asks
      rw [List.length_cons] at hfew
      obtain ⟨handle, next, hnext, hgiven, -, hagrees⟩ :=
        (ih (Nat.lt_of_succ_lt hfew)).instantiate hfew hasks hop
      obtain rfl := Except.ok.inj (hnext.symm.trans hcreates.step)
      exact eq_of_push_ofHandle (hgiven.symm.trans hstack) ▸ hagrees
  -- what surrounds the code outside leaves objects alone; what happens in it are events of their own
  | enter _ _ hasks ih =>
      obtain ⟨i, hread, -, -⟩ := hasks.read
      exact (ih hfew).of_same (sameObjects_of_read hread)
  | answer _ _ _ _ ih => exact (ih hfew).of_same (sameObjects_answer _ _ _ _)

/-! ## Natives that are functions -/

/-- A reply is part of a served history. -/
theorem Served.hear (h : Served p given n m) (id : Id) (reply : Reply) :
    Served p given n (m.hear id reply) := by
  simp only [Machine.hear]
  split
  · next code _ => exact .kill code (.equip m.natives _ m.budget _ h)
  · exact .equip m.natives _ m.budget _ h

/-- One instruction of a machine whose natives are functions. -/
theorem Served.next (h : Served p given n m) (hready : m.Ready) (hstep : m.step = .ok m') :
    ∃ created, Served p (created ++ given) n m' := by
  by_cases hnative : ∃ id native arguments below past, m.AsksNative id native arguments below past
  · obtain ⟨id, native, arguments, below, past, hasks⟩ := hnative
    have hserved := (h.enter hready hasks).hear id (Exec.replyTo native id arguments past)
    obtain rfl := Except.ok.inj (hasks.step_eq.symm.trans hstep)
    exact ⟨[], hserved.answer _ _ _⟩
  · by_cases hcreates : ∃ i arg below, m.Asks i arg below ∧ i.op = .instantiate
    · obtain ⟨i, arg, below, hasks, hop⟩ := hcreates
      obtain ⟨next, hnext, -, hcreated⟩ := hasks.step_instantiate hop
      obtain rfl := Except.ok.inj (hnext.symm.trans hstep)
      -- the handle is the host's or the null handle
      have hgiven : ∃ handle, m.Creates handle next := by
        split at hcreated
        · exact ⟨_, ⟨i, arg, below, hasks, hop, hcreated.1⟩, hstep⟩
        · exact ⟨_, ⟨i, arg, below, hasks, hop, hcreated.1⟩, hstep⟩
      obtain ⟨handle, hgiven⟩ := hgiven
      exact ⟨[handle], h.create hready hgiven⟩
    · refine ⟨[], h.step hready ?_ ?_ hstep⟩
      · intro id native arguments below past hasks
        exact hnative ⟨id, native, arguments, below, past, hasks⟩
      · intro i arg below hasks hop
        exact hcreates ⟨i, arg, below, hasks, hop⟩

/-- A tick of a machine whose natives are functions. -/
theorem Served.tick (h : Served p given n m) (htick : m.tick = .ok m') :
    ∃ created, Served p (created ++ given) n m' := by
  refine tick_invariant (P := fun m => ∃ created, Served p (created ++ given) n m) ?_ ?_ ?_ ⟨[], h⟩ htick
  · rintro m hbusy ⟨created, hm⟩
    exact ⟨created, hm.wake hbusy⟩
  · rintro m hstate hflag ⟨created, hm⟩
    exact ⟨created, hm.halt hstate hflag⟩
  · rintro m m' hready hstep ⟨created, hm⟩
    obtain ⟨more, hm'⟩ := hm.next hready hstep
    exact ⟨more ++ created, by rwa [List.append_assoc]⟩

/-- In every machine that is served, the attached object is what the store says: none, or one that
lives. Each handle that was given is above all earlier ones, and so is the next one. And a request is
refused in the cases that `ObjectStore.Refuses` names, after which all objects are as before. -/
theorem attached_agrees (h : Served p given n m) (hfew : given.length < 2 ^ 63) :
    ∃ store, m.host = .memory store
      ∧ m.attached = store.attached
      ∧ (m.attached = Name.nullObject ∨ store.objects.has m.attached = true)
      ∧ store.objects.has Name.nullObject = false
      ∧ given.Pairwise (fun later earlier => earlier < later)
      ∧ (∀ i arg below, m.Asks i arg below → i.op = .instantiate → given.length + 1 < 2 ^ 63 →
        ∃ handle m', m.Creates handle m' ∧ ∀ earlier ∈ given, earlier < handle)
      ∧ ∀ i arg below, m.Asks i arg below → i.op ≠ .instantiate →
        ((∃ e, askHost i.op arg.handle m.host = .error e) ↔ store.Refuses i.op arg.handle)
        ∧ (store.Refuses i.op arg.handle → ∃ m', m.step = .ok m' ∧ m'.stack = below.push .void
          ∧ m'.host = m.host ∧ m'.attached = m.attached) := by
  have hagrees := h.agrees hfew
  obtain ⟨store, hhost, hattached, hsound⟩ := id hagrees
  refine ⟨store, hhost, hattached, hattached ▸ hsound.attached, hsound.null_dead, hsound.ascending,
    ?_, ?_⟩
  · intro i arg below hasks hop hnext
    obtain ⟨handle, m', hstep, hstack, hlater, -⟩ := hagrees.instantiate hnext hasks hop
    exact ⟨handle, m', ⟨⟨i, arg, below, hasks, hop, hstack⟩, hstep⟩, hlater⟩
  · intro i arg below hasks hop
    have hops := hasks.op_cases hop
    rw [hhost]
    refine ⟨⟨?_, ObjectStore.askHost_of_refuses hops⟩, ?_⟩
    · -- what the host refuses the store refuses, or the host would have granted it
      rintro ⟨e, he⟩
      by_contra hgrants
      obtain ⟨store', hgranted, -⟩ := ObjectStore.askHost_of_grants given hops hgrants
      rw [hgranted] at he
      cases he
    · intro hrefuses
      obtain ⟨e, he⟩ := ObjectStore.askHost_of_refuses hops hrefuses
      obtain ⟨m', hstep, hstack, hanswer⟩ := hasks.step_request hop
      rw [hhost, he] at hanswer
      exact ⟨m', hstep, hstack, hanswer.host.trans hhost, hanswer.attached⟩

/-- A function of two parameters that creates an object of the second, attaches it, and asks to detach
what the first one stands for. -/
def detaching : FunctionBody :=
  ⟨2, .void, [Opcode.instantiate.byte, Opcode.attach.byte, Opcode.pop.byte, Opcode.detach.byte,
    Opcode.ret.byte]⟩

/-- The machine of `detaching`, called with a negative number and some text. -/
def detachingAt (ip : Int) (stack : OperandStack) (store : ObjectStore) (attached : Handle) : Machine :=
  { ofProgram { functions := [(1, detaching)] } with
    frames := [{ id := 1, function := detaching, ip }]
    host := .memory store
    stack, attached, ticks := 1, state := .running }

/-- The store once the object was created. -/
def oneObject : ObjectStore := { last := 1, objects := [(1, .ofText "axe")] }

theorem detachingAt_refused : ∃ m', (detachingAt 3 (OperandStack.push (.ofInt (-3)) [])
      { oneObject with attached := 1 } 1).step = .ok m'
    ∧ m'.attached = 1 ∧ m'.host = .memory { oneObject with attached := 1 } := by
  let number : OperandStack := OperandStack.push (.ofInt (-3)) []
  -- no native function is registered, so none is ever asked
  have hnative (m : Machine) (h : m.natives = []) (id : Id) (native : Native) (arguments : List Value)
      (below : OperandStack) (past : Machine) : ¬ m.AsksNative id native arguments below past := by
    intro hasks
    obtain ⟨ip, rfl⟩ := hasks.exists_goto
    have hregistered := hasks.calls.registered
    rw [goto_natives, h] at hregistered
    cases hregistered
  have hcall : (ofProgram { functions := [(1, detaching)] }).callId 1 [.ofInt (-3), .ofText "axe"]
      = .ok { detachingAt 0 (number.push (.ofText "axe")) {} Name.nullObject with ticks := 0 } := rfl
  -- the call, then the creation, the attachment and the two pops, each a step of `Served`
  have hcalled : Served { functions := [(1, detaching)] } [] 0
      (detachingAt 0 (number.push (.ofText "axe")) {} Name.nullObject) :=
    (Served.new.call hcall).wake rfl
  have hcreates : (detachingAt 0 (number.push (.ofText "axe")) {} Name.nullObject).Creates 1
      (detachingAt 1 (number.push (.ofHandle 1)) oneObject Name.nullObject) :=
    ⟨⟨.plain .instantiate, .ofText "axe", number, ⟨⟨_, rfl, by rfl⟩, rfl⟩, rfl, rfl⟩, by rfl⟩
  have hattach : (detachingAt 1 (number.push (.ofHandle 1)) oneObject Name.nullObject).step
      = .ok (detachingAt 2 (number.push .void) { oneObject with attached := 1 } 1) := by
    have hcode : Placed detaching.code 1 [.plain .attach] :=
      ⟨fun _ hi => List.mem_singleton.1 hi ▸ Instr.encodable_plain rfl, [Opcode.instantiate.byte],
        [Opcode.pop.byte, Opcode.detach.byte, Opcode.ret.byte], rfl, rfl⟩
    have hshort : detaching.code.length < 2 ^ 63 := by decide
    have hnext : (detachingAt 1 (number.push (.ofHandle 1)) oneObject Name.nullObject).Next 1
        (.plain .attach) := ⟨_, _, rfl, rfl, hcode, hshort⟩
    have hpop : (detachingAt 1 (number.push (.ofHandle 1)) oneObject Name.nullObject).stack.pop?
        = some (.ofHandle 1, number) := rfl
    have hhandle : Int64.ofInt (Value.ofHandle 1).toInt = 1 := by decide
    rw [step_object hnext (.inr (.inl rfl)) hpop, hhandle]
    rfl
  have hattached : Served { functions := [(1, detaching)] } [1] 0
      (detachingAt 2 (number.push .void) { oneObject with attached := 1 } 1) := by
    refine (hcalled.create ⟨rfl, rfl⟩ hcreates).step ⟨rfl, rfl⟩ (hnative _ rfl) ?_ hattach
    intro i arg below hasks
    rw [hasks.eq_of_read (.plain .attach) rfl]
    decide
  have hpopped : Served { functions := [(1, detaching)] } [1] 0
      (detachingAt 3 number { oneObject with attached := 1 } 1) := by
    refine hattached.step ⟨rfl, rfl⟩ (hnative _ rfl) ?_ (by rfl)
    intro i arg below hasks
    rw [hasks.eq_of_read (.plain .pop) rfl]
    decide
  -- the invariant says which requests the store refuses in the state reached
  obtain ⟨store, hhost, hsame, -, -, -, -, hrequests⟩ := attached_agrees hpopped (by decide)
  have hasks : (detachingAt 3 number { oneObject with attached := 1 } 1).Asks (.plain .detach)
      (.ofInt (-3)) [] := ⟨⟨_, rfl, by rfl⟩, rfl⟩
  -- the number is the handle -3, which is not attached
  have hother : store.Refuses .detach (Value.ofInt (-3)).handle := by
    rw [ObjectStore.Refuses, if_pos rfl, ← hsame]
    decide
  obtain ⟨m', hstep, -, hkept, hstays⟩ := (hrequests _ _ _ hasks (by decide)).2 hother
  exact ⟨m', hstep, hstays, hkept⟩

end Machine

end TickScript
