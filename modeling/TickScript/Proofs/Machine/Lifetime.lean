import TickScript.Machine.Run
import TickScript.Proofs.Machine.Outcome

/-!
# The lifetime of a machine

A host calls a machine, ticks it, sets its fields and kills it, in any order. While an instruction
calls a native, or asks for an object, it is the code outside that runs, and it may do all of that to
the very machine that waits for it, tick it again included. `Machine.Occurs p discreet waiting m`
are the machines that come about in this way from a new machine of the program `p`; `waiting` counts
the instructions that wait for an answer from outside. Nothing is assumed about the code outside but
that it uses a machine in the ways that are open to it. It is `discreet` if it gives no result to a
machine that has been killed in the meantime.

A tick of a machine whose natives are functions of their arguments is a special case
(`Machine.Occurs.tick`).

The counter of waiting instructions makes the relation one over single events, although the events
are nested: an instruction that hands over to a native is half carried out, the machine it leaves
may be used in any way, and when the native answers the other half follows, on whatever machine
there is then. Invariants of `Occurs` are therefore proved by one induction with a case for each
event, whether it happens inside of a native or not.

`tick_invariant` is the bridge to machines whose natives are functions: what each part of a tick
keeps is kept by ticks.
-/

namespace TickScript

/-- Whether an operation asks the host for an object. -/
def Opcode.asksHost : Opcode → Bool
  | .instantiate | .delete | .attach | .detach => true
  | _ => false

/-- Whether the native is done. -/
def Answer.isDone : Answer → Bool
  | .done _ => true
  | _ => false

/-- The native does not kill the machine and then give a result. -/
def Native.Discreet (native : Native) : Prop :=
  ∀ call, (native.reply call).answer.isDone = true → (native.reply call).kill? = none

namespace Machine

/-- A machine that is about to carry out an instruction. -/
structure Ready (m : Machine) : Prop where
  running : m.state = .running
  alive : m.killFlag = false

/-- The next instruction calls a native, which finds the machine as `past`. -/
structure AsksNative (m : Machine) (id : Id) (native : Native) (arguments : List Value)
    (below : OperandStack) (past : Machine) : Prop where
  read : ∃ i, Exec.read m = .ok i past ∧ i.op = .call ∧ i.word 0 = id
  calls : past.CallsNative id native arguments below

/-- The next instruction asks the host about a value, and the host finds the machine as `past`. -/
structure AsksHost (m : Machine) (arg : Value) (past : Machine) : Prop where
  read : ∃ i behind below, Exec.read m = .ok i behind ∧ i.op.asksHost = true
    ∧ behind.stack.pop? = some (arg, below) ∧ past = { behind with stack := below }

/-- The machines of a program in all their states. -/
inductive Occurs (p : Program) (discreet : Prop) : (waiting : Nat) → Machine → Prop
  | new : Occurs p discreet 0 (ofProgram p)
  /-- The host is replaced, or natives are registered, and what natives remember changes. -/
  | equip {n : Nat} {m : Machine} (host : Host) (natives : Table Id Native)
      (nativeCalls : Table Id Nat) (budget : Int) (printed : List Text) : Occurs p discreet n m →
      Occurs p discreet n { m with host, natives, nativeCalls, budget, printed }
  | call {n : Nat} {m m' : Machine} {id : Id} {args : List Value} : Occurs p discreet n m →
      m.callId id args = .ok m' → Occurs p discreet n m'
  | setField {n : Nat} {m m' : Machine} {name : Text} {v : Value} : Occurs p discreet n m →
      m.setField name v = .ok m' → Occurs p discreet n m'
  | kill {n : Nat} {m : Machine} (code : KillCode) : Occurs p discreet n m →
      Occurs p discreet n (m.kill code)
  /-- A tick begins. -/
  | wake {n : Nat} {m : Machine} : Occurs p discreet n m → m.state.isBusy = true →
      Occurs p discreet n { m with ticks := m.ticks + 1, state := .running }
  /-- A tick notices that the machine was killed. -/
  | halt {n : Nat} {m : Machine} : Occurs p discreet n m → m.state = .running →
      m.killFlag = true → Occurs p discreet n { m with state := .killed }
  /-- A tick carries out an instruction that calls no native. -/
  | step {n : Nat} {m m' : Machine} : Occurs p discreet n m → m.Ready →
      (∀ id native arguments below past, ¬ m.AsksNative id native arguments below past) →
      m.step = .ok m' → Occurs p discreet n m'
  /-- A native is called, and its code runs. -/
  | enter {n : Nat} {m past : Machine} {id : Id} {native : Native} {arguments : List Value}
      {below : OperandStack} : Occurs p discreet n m → m.Ready →
      m.AsksNative id native arguments below past → Occurs p discreet (n + 1) past
  /-- A native answers a machine that need not be as the native found it. -/
  | answer {n : Nat} {m : Machine} (start : Int) (below : OperandStack) (a : Answer) :
      Occurs p discreet (n + 1) m → (discreet → a.isDone = true → m.killFlag = false) →
      Occurs p discreet n (m.answer start below a)
  /-- The host is asked for an object, and its code runs. -/
  | ask {n : Nat} {m past : Machine} {arg : Value} : Occurs p discreet n m → m.Ready →
      m.AsksHost arg past → Occurs p discreet (n + 1) past
  /-- The host gives whatever it likes, and the machine attaches what it likes. -/
  | grant {n : Nat} {m : Machine} (attached : Handle) (v : Value) : Occurs p discreet (n + 1) m →
      (discreet → m.killFlag = false) → Occurs p discreet n ({ m with attached }.push v)

/-! ## Requests -/

/-- A call gives the machine a fresh start. -/
theorem exists_callId_eq {m m' : Machine} {id : Id} {args : List Value}
    (h : m.callId id args = .ok m') : ∃ stack frames, m' = { m with
      stack, frames, savedCompares := [], compareValue := false, compareFlag := false,
      killFlag := false, killCode := 0, result := .void, state := .running } := by
  simp only [callId] at h
  split at h
  · cases h
  · split at h
    · cases h
    · split at h
      · cases h
      · exact ⟨_, _, (Except.ok.inj h).symm⟩

/-- A field is set as a value of the type that it has. -/
theorem exists_setField_eq {m m' : Machine} {name : Text} {v : Value}
    (h : m.setField name v = .ok m') : ∃ id old, m.globals.get? id = some old
      ∧ m' = { m with globals := m.globals.set id (v.convert old.type) } := by
  simp only [setField] at h
  split at h
  · cases h
  · next old hold =>
      split at h
      · exact ⟨_, old, hold, (Except.ok.inj h).symm⟩
      · cases h

/-- Reading an instruction moves the instruction pointer and nothing else. -/
theorem exists_goto_of_read {m past : Machine} {i : Instr} (h : Exec.read m = .ok i past) :
    ∃ ip, past = m.goto ip := by
  rcases Exec.read_moves m with hfails | hmoves
  · rw [h] at hfails
    cases hfails
  · rw [h] at hmoves
    exact hmoves

theorem AsksNative.exists_goto {m past : Machine} {id : Id} {native : Native}
    {arguments : List Value} {below : OperandStack} (h : m.AsksNative id native arguments below past) :
    ∃ ip, past = m.goto ip := by
  obtain ⟨i, hread, -⟩ := h.read
  exact exists_goto_of_read hread

/-! ## Natives that are functions -/

variable {p : Program} {discreet : Prop} {n : Nat} {m m' : Machine}

/-- An instruction that calls a native is the call, the reply and the answer. -/
theorem AsksNative.step_eq {past : Machine} {id : Id} {native : Native} {arguments : List Value}
    {below : OperandStack} (h : m.AsksNative id native arguments below past) :
    m.step = .ok ((past.hear id (Exec.replyTo native id arguments past)).answer m.place below
      (Exec.replyTo native id arguments past).answer) := by
  obtain ⟨i, hread, hop, rfl⟩ := h.read
  have hact : Exec.act m.place i = Exec.call m.place (i.word 0) := by simp only [Exec.act, hop]
  rw [Machine.step_eq, Exec.run_bind, hread, ← settle_call_native h.calls, ← hact]

/-- The natives that are registered are discreet, if they have to be. -/
def Behaved (discreet : Prop) (m : Machine) : Prop :=
  discreet → ∀ id native, m.natives.get? id = some native → native.Discreet

/-- What a native replies is a part of the history. -/
theorem Occurs.hear (h : Occurs p discreet n m) (id : Id) (reply : Reply) :
    Occurs p discreet n (m.hear id reply) := by
  simp only [Machine.hear]
  split
  · next code _ => exact .kill code (.equip m.host m.natives _ m.budget _ h)
  · exact .equip m.host m.natives _ m.budget _ h

/-- One instruction of a machine whose natives are functions. -/
theorem Occurs.next (h : Occurs p discreet n m) (hready : m.Ready) (hnatives : m.Behaved discreet)
    (hstep : m.step = .ok m') : Occurs p discreet n m' := by
  by_cases hasks : ∃ id native arguments below past, m.AsksNative id native arguments below past
  · obtain ⟨id, native, arguments, below, past, hasks⟩ := hasks
    have hoccurs := (h.enter hready hasks).hear id (Exec.replyTo native id arguments past)
    obtain rfl := Except.ok.inj (hasks.step_eq.symm.trans hstep)
    apply hoccurs.answer
    intro hdiscreet hdone
    -- a native that is done did not kill, so the machine is as alive as before
    obtain ⟨ip, rfl⟩ := hasks.exists_goto
    have hregistered : m.natives.get? id = some native :=
      (kept_mapFrame m fun f => { f with ip }).natives ▸ hasks.calls.registered
    have hkill : (Exec.replyTo native id arguments (m.goto ip)).kill? = none :=
      hnatives hdiscreet id native hregistered _ hdone
    rw [killFlag_hear _ id hkill]
    obtain ⟨frames, hgoto⟩ := exists_mapFrame_eq m fun f => { f with ip }
    rw [goto, hgoto]
    exact hready.alive
  · apply h.step hready _ hstep
    intro id native arguments below past hasks'
    exact hasks ⟨id, native, arguments, below, past, hasks'⟩

/-- What holds whenever a machine is about to carry out an instruction, and after it, holds after some
of them. -/
theorem steps_invariant {P : Machine → Prop}
    (hhalt : ∀ m : Machine, m.state = .running → m.killFlag = true → P m → P { m with state := .killed })
    (hstep : ∀ m m' : Machine, m.Ready → m.step = .ok m' → P m → P m') (count : Nat) (h : P m)
    (hsteps : m.steps count = .ok m') : P m' := by
  induction count generalizing m with
  | zero => exact Except.ok.inj hsteps ▸ h
  | succ count ih =>
      rw [Machine.steps] at hsteps
      split_ifs at hsteps with hstate hkilled
      · exact Except.ok.inj hsteps ▸ h
      · exact Except.ok.inj hsteps ▸ hhalt m (not_not.1 hstate) hkilled h
      · cases hnext : m.step with
        | error e => simp [hnext] at hsteps
        | ok next =>
            simp only [hnext] at hsteps
            exact ih (hstep m next ⟨not_not.1 hstate, by simpa using hkilled⟩ hnext h) hsteps

/-- What the parts of a tick keep, a tick keeps. -/
theorem tick_invariant {P : Machine → Prop}
    (hwake : ∀ m : Machine, m.state.isBusy = true → P m →
      P { m with ticks := m.ticks + 1, state := .running })
    (hhalt : ∀ m : Machine, m.state = .running → m.killFlag = true → P m → P { m with state := .killed })
    (hstep : ∀ m m' : Machine, m.Ready → m.step = .ok m' → P m → P m') (h : P m)
    (htick : m.tick = .ok m') : P m' := by
  rw [Machine.tick] at htick
  split_ifs at htick with hbusy
  · exact steps_invariant hhalt hstep _ (hwake m hbusy h) htick
  · exact Except.ok.inj htick ▸ h

/-- A slice is a number of steps. -/
theorem Occurs.tick (h : Occurs p discreet n m) (hnatives : m.Behaved discreet)
    (htick : m.tick = .ok m') : Occurs p discreet n m' := by
  refine (tick_invariant (P := fun m => Occurs p discreet n m ∧ m.Behaved discreet) ?_ ?_ ?_
    ⟨h, hnatives⟩ htick).1
  · exact fun m hbusy hm => ⟨hm.1.wake hbusy, hm.2⟩
  · exact fun m hstate hflag hm => ⟨hm.1.halt hstate hflag, hm.2⟩
  · rintro m m' hready hstep ⟨hm, hbehaved⟩
    refine ⟨hm.next hready hbehaved hstep, fun hdiscreet id native hget => ?_⟩
    exact hbehaved hdiscreet id native ((step_kept hstep).natives ▸ hget)

end Machine

end TickScript
