import Mathlib.Logic.Relation
import TickScript.Proofs.Machine.Lifetime
import TickScript.Proofs.Machine.Totality

/-!
# What a call leaves alone

An active call is reached by what runs only while it is the innermost one. `Machine.Event` lists all
that can happen to a machine as long as its host starts no new call: instructions, the code of natives
and of the object host that runs inside them, and everything that a host does between instructions.
Every event shifts the calls in one of three ways (`Machine.Shifts`): the innermost call changes, it
enters another one, or it returns.

`Machine.call_leaves_callers` follows one call from the instruction that enters it. Whatever
happens while it is active, the calls below it stay as they were, and the return that ends it gives
the caller back as the call had left it.

The segments are those of a machine and not of a program: what is said holds for any code, for
natives that do anything that a native can do to the machine, and for a host that reads, writes and
kills between instructions. The depth below which nothing may change is fixed when the call is
entered, and `Above` is the invariant of the segment; the only event that could break it is the
return of the call itself, which `Above.left` describes.
-/

namespace TickScript

namespace Machine

variable {m m' m'' : Machine}

/-! ## Where the next instruction stands -/

/-- The innermost call has passed some bytes of its code, and nothing else has happened. -/
def Passes (m : Machine) (count : Nat) (m' : Machine) : Prop :=
  ∃ f rest, m.frames = f :: rest ∧ m' = { m with frames := { f with ip := f.ip + count } :: rest }

/-- Bytes passed one after the other. -/
theorem Passes.trans {a b : Nat} (h : m.Passes a m') (h' : m'.Passes b m'') :
    m.Passes (a + b) m'' := by
  obtain ⟨f, rest, hframes, rfl⟩ := h
  obtain ⟨g, rest', hframes', rfl⟩ := h'
  obtain ⟨rfl, rfl⟩ := List.cons.inj hframes'
  exact ⟨f, rest, hframes, by push_cast; rw [Int.add_assoc]⟩

end Machine

namespace Exec

open Machine

variable {m m' : Machine}

/-- A fetch passes the bytes that it answers. -/
theorem passes_fetchBytes {count : Nat} {bytes : Text} (h : fetchBytes count m = .ok bytes m') :
    m.Passes count m' ∧ bytes.length = count := by
  simp only [fetchBytes, run_bind, run_get] at h
  cases hframes : m.frames with
  | nil => simp [hframes] at h
  | cons f rest =>
      simp only [hframes] at h
      split_ifs at h with hneg hshort
      · cases h
      · cases h
      · obtain ⟨rfl, rfl⟩ : _ ∧ _ := by simpa using h
        refine ⟨⟨f, rest, hframes, rfl⟩, ?_⟩
        rw [List.length_take] at hshort ⊢
        omega

/-- Operands are passed by their widths. -/
theorem passes_fetchOperands {operands : List Operand} {words : List Int64} {f : Frame}
    {rest : List Frame} (hframes : m.frames = f :: rest)
    (h : fetchOperands operands m = .ok words m') :
    m.Passes (operands.foldr (fun o n => o.width.bytes + n) 0) m' := by
  induction operands generalizing m words f rest with
  | nil =>
      cases h
      exact ⟨f, rest, hframes, by simp [← hframes]⟩
  | cons operand operands ih =>
      simp only [fetchOperands, fetchOperand, run_bind] at h
      cases hfirst : fetchBytes operand.width.bytes m with
      | error stop past => simp [hfirst] at h
      | ok bytes past =>
          simp only [hfirst, run_pure] at h
          obtain ⟨hpasses, -⟩ := passes_fetchBytes hfirst
          obtain ⟨g, rest', -, rfl⟩ := id hpasses
          cases hmore : fetchOperands operands
              { m with frames := { g with ip := g.ip + operand.width.bytes } :: rest' } with
          | error stop past => simp [hmore] at h
          | ok words past =>
              simp only [hmore] at h
              cases h
              exact hpasses.trans (ih rfl hmore)

/-- An instruction is passed as a whole, its data included. -/
theorem passes_fetchInstr {op : Opcode} {i : Instr} {f : Frame} {rest : List Frame}
    (hframes : m.frames = f :: rest) (h : fetchInstr op m = .ok i m') :
    m.Passes (op.operandBytes + i.data.length) m' ∧ i.op = op := by
  simp only [fetchInstr, run_bind] at h
  cases hwords : fetchOperands op.operands m with
  | error stop past => simp [hwords] at h
  | ok words past =>
      have hpasses := passes_fetchOperands hframes hwords
      simp only [hwords] at h
      split_ifs at h
      · simp only [run_bind] at h
        cases hdata : fetchBytes (words.getLast?.getD 0).toUInt64.toNat past with
        | error stop past => simp [hdata] at h
        | ok data past =>
            simp only [hdata] at h
            cases h
            obtain ⟨hrest, hlength⟩ := passes_fetchBytes hdata
            rw [hlength]
            exact ⟨hpasses.trans hrest, rfl⟩
      · cases h
        exact ⟨hpasses, rfl⟩

/-- An instruction that was read is passed. -/
theorem passes_read {i : Instr} (h : read m = .ok i m') : m.Passes i.size m' := by
  have hopcode : fetchOpcode m = fetchByte m := by
    by_cases hlast : m.frames.head?.map (·.ip) = some 0x7FFFFFFFFFFFFFFF
    · simp only [read, fetchOpcode, run_bind, run_get, hlast, if_true, run_throw] at h
      cases h
    · simp only [fetchOpcode, run_bind, run_get, hlast, if_false]
  simp only [read, run_bind, hopcode, fetchByte, fetchWord] at h
  cases hbyte : fetchBytes 1 m with
  | error stop past => simp [hbyte] at h
  | ok bytes past =>
      obtain ⟨hpasses, -⟩ := passes_fetchBytes hbyte
      obtain ⟨f, rest, hframes, rfl⟩ := id hpasses
      simp only [hbyte, run_pure] at h
      cases hop : Opcode.ofByte? (UInt64.ofNat (Text.ofLittleEndian bytes)).toUInt8 with
      | none =>
          simp only [hop, run_kill] at h
          cases h
      | some op =>
          simp only [hop] at h
          obtain ⟨hrest, rfl⟩ := passes_fetchInstr rfl h
          have hsize : i.size = 1 + (i.op.operandBytes + i.data.length) := Nat.add_assoc ..
          rw [hsize]
          exact hpasses.trans hrest

end Exec

namespace Machine

variable {m m' : Machine} {i : Instr} {past next : Machine}

/-! ## How the calls change -/

/-- What can become of the calls at once: nothing, or the innermost one changes, enters another one or
returns. A call that is entered notes how many compare values are saved, and one that returns leaves
no more than it has noted. -/
inductive Shifts (m m' : Machine) : Prop
  /-- The calls stay as they are. -/
  | same : m'.frames = m.frames → Shifts m m'
  /-- The innermost call changes, and not the level of its saved comparisons. -/
  | changes {f g : Frame} {rest : List Frame} : m.frames = f :: rest → m'.frames = g :: rest →
      g.cvDepth = f.cvDepth → Shifts m m'
  /-- A call is entered above the others. -/
  | enters {f g : Frame} {rest : List Frame} (ip : Int) : m.frames = f :: rest →
      m'.frames = g :: { f with ip } :: rest → g.cvDepth = m.savedCompares.length → Shifts m m'
  /-- The innermost call is left by a return. -/
  | returns {f : Frame} {rest : List Frame} : m.frames = f :: rest → m'.frames = rest →
      m'.savedCompares.length ≤ f.cvDepth → (∃ i past, Exec.read m = .ok i past ∧ i.op = .ret) →
      Shifts m m'

/-- Calls below the innermost one are not touched, and there is at most one more or one less. -/
theorem Shifts.tail_suffix (h : m.Shifts m') : m.frames.tail <:+ m'.frames
    ∧ m'.frames.length ≤ m.frames.length + 1 ∧ m.frames.length ≤ m'.frames.length + 1 := by
  cases h with
  | same hsame =>
      rw [hsame]
      exact ⟨List.tail_suffix _, by omega, by omega⟩
  | changes hframes hnext _ =>
      rw [hframes, hnext]
      exact ⟨List.suffix_cons _ _, by simp, by simp⟩
  | enters ip hframes hnext _ =>
      rw [hframes, hnext]
      exact ⟨(List.suffix_cons _ _).trans (List.suffix_cons _ _), by simp, by simp⟩
  | returns hframes hnext _ _ =>
      rw [hframes, hnext, List.length_cons]
      exact ⟨List.suffix_rfl, by omega, by omega⟩

/-- A change within the innermost frame leaves the callers alone. -/
theorem shifts_mapFrame (m : Machine) (change : Frame → Frame)
    (hchange : ∀ f, (change f).cvDepth = f.cvDepth) (h : m'.frames = (m.mapFrame change).frames) :
    m.Shifts m' := by
  rw [frames_mapFrame] at h
  cases hframes : m.frames with
  | nil => exact .same (by rw [h, hframes])
  | cons f rest =>
      rw [hframes] at h
      exact .changes hframes h (hchange f)

/-- A native's answer changes at most the address of the innermost call. -/
theorem exists_frames_answer {f : Frame} {rest : List Frame} (hframes : m.frames = f :: rest)
    (start : Int) (below : OperandStack) (a : Answer) :
    ∃ ip, (m.answer start below a).frames = { f with ip } :: rest := by
  cases a with
  | failed => exact ⟨f.ip, hframes⟩
  | done result => exact ⟨f.ip, hframes⟩
  | pending => exact ⟨start, by simp only [answer, frames_mapFrame, hframes]⟩

/-- What a native answers touches no caller's frame; if it is not done, the call is repeated. -/
theorem shifts_answer (m : Machine) (start : Int) (below : OperandStack) (a : Answer) :
    m.Shifts (m.answer start below a) := by
  cases hframes : m.frames with
  | cons f rest =>
      obtain ⟨ip, hnext⟩ := exists_frames_answer hframes start below a
      exact .changes hframes hnext rfl
  | nil =>
      apply Shifts.same
      cases a with
      | failed => rfl
      | done result => rfl
      | pending => simp only [answer, frames_mapFrame, hframes]

/-- What an instruction leads to shifts the calls of the machine that has read it. -/
theorem Outcome.shifts {start : Int} (hread : Exec.read m = .ok i past)
    (h : Outcome start i past next) : m.Shifts next := by
  obtain ⟨f, rest, hframes, hpast⟩ := Exec.passes_read hread
  have hmoved : past.frames = { f with ip := f.ip + i.size } :: rest := by rw [hpast]
  have hsaved : past.savedCompares = m.savedCompares := by rw [hpast]
  have hchanges {g : Frame} (hnext : next.frames = g :: rest) (hdepth : g.cvDepth = f.cvDepth) :
      m.Shifts next := .changes hframes hnext hdepth
  -- the innermost call as an instruction has left its variables
  have hordinary {x : Machine} (hchange : past.OrdinaryChange x) :
      ∃ locals, x.frames = { f with ip := f.ip + i.size, locals } :: rest := by
    obtain ⟨locals, hnext⟩ := hchange.frames
    rw [frames_mapFrame, hmoved] at hnext
    exact ⟨locals, hnext⟩
  have hleft {g : Frame} {frames : List Frame} (hcalls : past.frames = g :: frames) :
      frames = rest ∧ (past.leave g frames).savedCompares.length ≤ f.cvDepth := by
    rw [hmoved] at hcalls
    obtain ⟨rfl, rfl⟩ := List.cons.inj hcalls
    refine ⟨rfl, ?_⟩
    rw [Machine.leave, List.length_drop]
    show past.savedCompares.length - (past.savedCompares.length - f.cvDepth) ≤ f.cvDepth
    omega
  -- every outcome either changes the innermost call alone, enters a call or leaves one
  cases h with
  | changed hchange =>
      obtain ⟨locals, hnext⟩ := hordinary hchange
      exact hchanges hnext rfl
  | failed hchange _ =>
      obtain ⟨locals, hnext⟩ := hordinary hchange
      exact hchanges hnext rfl
  | killed _ => exact hchanges hmoved rfl
  | jumped target _ =>
      refine hchanges (g := { f with ip := target (f.ip + i.size) }) ?_ rfl
      rw [frames_mapFrame, hmoved]
  | entered _ _ => exact .enters _ hframes (by rw [← hmoved]) (congrArg List.length hsaved)
  | answered _ _ =>
      obtain ⟨ip, hnext⟩ := exists_frames_answer ((hear_frames _ _ past).trans hmoved) start _ _
      exact hchanges hnext rfl
  | returned stack result state hop hcalls _ =>
      obtain ⟨hrest, hdepth⟩ := hleft hcalls
      exact .returns hframes hrest hdepth ⟨i, past, hread, hop⟩
  | stranded stack hop hcalls =>
      obtain ⟨hrest, hdepth⟩ := hleft hcalls
      exact .returns hframes hrest hdepth ⟨i, past, hread, hop⟩

/-- A step shifts the calls. -/
theorem shifts_step (h : m.step = .ok m') : m.Shifts m' := by
  rcases step_cases m with hfails | ⟨ip, code, hkilled⟩ | ⟨i, ip, next, hread, hnext, houtcome⟩
  · rw [hfails] at h
    cases h
  · obtain rfl := Except.ok.inj (hkilled.symm.trans h)
    exact shifts_mapFrame m (fun f => { f with ip }) (fun _ => rfl) rfl
  · obtain rfl := Except.ok.inj (hnext.symm.trans h)
    exact houtcome.shifts hread

/-! ## Everything that can happen during a call -/

/-- What can happen to a machine while its host starts no new call. Natives and hosts of objects are
code outside, which finds the machine in the middle of an instruction and may do all of this to it
before it answers. -/
inductive Event : Machine → Machine → Prop
  /-- An instruction is carried out; natives may be functions of their calls. -/
  | step {m m' : Machine} : m.step = .ok m' → Event m m'
  /-- A native is called, and its code runs. -/
  | enter {m past : Machine} {id : Id} {native : Native} {arguments : List Value}
      {below : OperandStack} : m.AsksNative id native arguments below past → Event m past
  /-- A native answers a machine that need not be as the native found it. -/
  | answer {m : Machine} (start : Int) (below : OperandStack) (a : Answer) :
      Event m (m.answer start below a)
  /-- The host is asked for an object, and its code runs. -/
  | ask {m past : Machine} {arg : Value} : m.AsksHost arg past → Event m past
  /-- The host gives whatever it likes, and the machine attaches what it likes. -/
  | grant {m : Machine} (attached : Handle) (v : Value) : Event m ({ m with attached }.push v)
  /-- The host is replaced, or natives are registered, and what natives remember changes. -/
  | equip {m : Machine} (host : Host) (natives : Table Id Native) (nativeCalls : Table Id Nat)
      (budget : Int) (printed : List Text) :
      Event m { m with host, natives, nativeCalls, budget, printed }
  | setField {m m' : Machine} {name : Text} {v : Value} : m.setField name v = .ok m' → Event m m'
  | kill {m : Machine} (code : KillCode) : Event m (m.kill code)
  /-- A tick begins, or it notices that the machine was killed. -/
  | turn {m : Machine} (ticks : UInt64) (state : MachineState) : Event m { m with ticks, state }

theorem shifts_goto_of_read (hread : Exec.read m = .ok i past) (hnext : next.frames = past.frames) :
    m.Shifts next := by
  obtain ⟨ip, rfl⟩ := exists_goto_of_read hread
  exact shifts_mapFrame m (fun f => { f with ip }) (fun _ => rfl) hnext

/-- Whatever happens shifts the calls. -/
theorem Event.shifts (h : Event m m') : m.Shifts m' := by
  cases h with
  | step hstep => exact shifts_step hstep
  | enter hasks =>
      obtain ⟨i, hread, -, -⟩ := hasks.read
      exact shifts_goto_of_read hread rfl
  | answer start below a => exact shifts_answer m start below a
  | ask hasks =>
      obtain ⟨i, behind, below, hread, -, -, rfl⟩ := hasks.read
      exact shifts_goto_of_read hread rfl
  | grant _ _ => exact .same rfl
  | equip _ _ _ _ _ => exact .same rfl
  | setField hset =>
      obtain ⟨id, old, -, rfl⟩ := exists_setField_eq hset
      exact .same rfl
  | kill _ => exact .same rfl
  | turn _ _ => exact .same rfl

/-! ## One call from its beginning to its end -/

/-- A machine that has come about without a new call of the host and without leaving the calls above
the lowest `depth` ones. -/
def During (depth : Nat) : Machine → Machine → Prop :=
  Relation.ReflTransGen fun a b => a.Event b ∧ depth < b.frames.length

/-- A call is active above some others: it is the innermost one or has made further calls, and it has
noted that `saved` compare values were saved when it began. -/
def Above (callers : List Frame) (saved : Nat) (m : Machine) : Prop :=
  ∃ inner g, m.frames = inner ++ g :: callers ∧ g.cvDepth = saved

variable {callers : List Frame} {saved : Nat}

/-- As long as the call is not left, the calls below it stay as they are. -/
theorem Above.of_shifts (h : Above callers saved m) (hshifts : m.Shifts m')
    (hdepth : callers.length < m'.frames.length) : Above callers saved m' := by
  obtain ⟨inner, g, hframes, hsaved⟩ := h
  cases hshifts with
  | same hsame => exact ⟨inner, g, hsame.trans hframes, hsaved⟩
  | @changes f f' rest hcalls hnext hkept =>
      rw [hframes] at hcalls
      cases inner with
      -- the call itself is the innermost one
      | nil =>
          obtain ⟨rfl, rfl⟩ := List.cons.inj hcalls
          exact ⟨[], f', hnext, hkept.trans hsaved⟩
      -- a call further in
      | cons a inner =>
          obtain ⟨rfl, rfl⟩ := List.cons.inj hcalls
          exact ⟨f' :: inner, g, hnext, hsaved⟩
  | @enters f f' rest ip hcalls hnext _ =>
      rw [hframes] at hcalls
      cases inner with
      | nil =>
          obtain ⟨rfl, rfl⟩ := List.cons.inj hcalls
          exact ⟨[f'], { g with ip }, hnext, hsaved⟩
      | cons a inner =>
          obtain ⟨rfl, rfl⟩ := List.cons.inj hcalls
          exact ⟨f' :: { a with ip } :: inner, g, hnext, hsaved⟩
  -- the call itself cannot return, or there would not be enough calls left
  | returns hcalls hnext _ _ =>
      rw [hframes] at hcalls
      cases inner with
      | nil =>
          obtain ⟨-, rfl⟩ := List.cons.inj hcalls
          rw [hnext] at hdepth
          exact absurd hdepth (Nat.lt_irrefl _)
      | cons a inner =>
          obtain ⟨-, rfl⟩ := List.cons.inj hcalls
          exact ⟨inner, g, hnext, hsaved⟩

/-- As long as the call lasts, its callers stand below it. -/
theorem Above.of_during (h : Above callers saved m) (hduring : During callers.length m m') :
    Above callers saved m' := by
  induction hduring with
  | refl => exact h
  | tail _ hevent ih => exact ih.of_shifts hevent.1.shifts hevent.2

/-- The call is left by its own return, which cuts the saved compare values back. -/
theorem Above.left (h : Above callers saved m) (hshifts : m.Shifts m')
    (hdepth : m'.frames.length ≤ callers.length) : m'.frames = callers
      ∧ m'.savedCompares.length ≤ saved ∧ ∃ i past, Exec.read m = .ok i past ∧ i.op = .ret := by
  obtain ⟨inner, g, hframes, hsaved⟩ := h
  -- only a return leaves fewer calls, and only the call's own leaves none above the callers
  have hlength := congrArg List.length hframes
  simp only [List.length_append, List.length_cons] at hlength
  cases hshifts with
  | same hsame =>
      rw [hsame] at hdepth
      omega
  | changes hcalls hnext _ =>
      rw [hcalls, List.length_cons] at hlength
      rw [hnext, List.length_cons] at hdepth
      omega
  | enters ip hcalls hnext _ =>
      rw [hcalls, List.length_cons] at hlength
      rw [hnext, List.length_cons, List.length_cons] at hdepth
      omega
  | returns hcalls hnext hcut hreturn =>
      rw [hframes] at hcalls
      cases inner with
      | nil =>
          obtain ⟨rfl, rfl⟩ := List.cons.inj hcalls
          exact ⟨hnext, hsaved ▸ hcut, hreturn⟩
      | cons a inner =>
          obtain ⟨-, rfl⟩ := List.cons.inj hcalls
          rw [hnext] at hdepth
          change (inner ++ g :: callers).length ≤ callers.length at hdepth
          rw [List.length_append, List.length_cons] at hdepth
          omega

/-- A step that carries out a call of a loaded function. -/
structure Enters (m : Machine) (i : Instr) (function : FunctionBody) : Prop where
  /-- The instruction is the next one. -/
  read : ∃ past, Exec.read m = .ok i past
  /-- It is a call. -/
  op : i.op = .call
  /-- What is called is a function of the program. -/
  loaded : m.program.functions.get? (i.word 0) = some function

/-- A call of a loaded function puts its frame above that of the caller, which stands behind the
instruction. -/
theorem Enters.frames {function : FunctionBody} (h : m.Enters i function) (hstep : m.step = .ok m') :
    ∃ f rest, m.frames = f :: rest
      ∧ m'.frames = { id := i.word 0, function, cvDepth := m.savedCompares.length }
        :: { f with ip := f.ip + i.size } :: rest := by
  obtain ⟨past, hread⟩ := h.read
  obtain ⟨f, rest, hframes, rfl⟩ := Exec.passes_read hread
  refine ⟨f, rest, hframes, ?_⟩
  rw [step_eq, Exec.run_bind, hread] at hstep
  simp only [Exec.act, h.op, Exec.run_call, h.loaded, settle] at hstep
  obtain rfl := Except.ok.inj hstep
  rfl

/-- An instruction touches no call but the innermost one, and makes at most one more or one less. A call
of a loaded function therefore leaves its callers alone: whatever happens until it is left, all calls
below it stay as they were, and the caller stands behind the instruction. It is left by a return, which
gives back just these calls and at most as many saved compare values as there were. Natives that are
called in between answer and may kill the machine (`Reply`); they do not call it. -/
theorem call_leaves_callers (hstep : m.step = .ok m') :
    (m.frames.tail <:+ m'.frames ∧ m'.frames.length ≤ m.frames.length + 1
      ∧ m.frames.length ≤ m'.frames.length + 1)
    ∧ ∀ i function, m.Enters i function → ∃ f rest, m.frames = f :: rest
      ∧ ∀ now, During (rest.length + 1) m' now →
        ({ f with ip := f.ip + i.size } :: rest <:+ now.frames ∧ rest.length + 1 < now.frames.length)
        ∧ ∀ back, now.Event back → back.frames.length ≤ rest.length + 1 →
          (∃ i past, Exec.read now = .ok i past ∧ i.op = .ret)
          ∧ back.frames = { f with ip := f.ip + i.size } :: rest
          ∧ back.savedCompares.length ≤ m.savedCompares.length := by
  refine ⟨(shifts_step hstep).tail_suffix, ?_⟩
  intro i function henters
  obtain ⟨f, rest, hframes, hentered⟩ := henters.frames hstep
  refine ⟨f, rest, hframes, ?_⟩
  intro now hduring
  have habove : Above ({ f with ip := f.ip + i.size } :: rest) m.savedCompares.length now :=
    Above.of_during ⟨[], _, hentered, rfl⟩ hduring
  refine ⟨?_, ?_⟩
  · obtain ⟨inner, g, hnow, -⟩ := habove
    rw [hnow]
    refine ⟨(List.suffix_cons _ _).trans (List.suffix_append _ _), ?_⟩
    simp only [List.length_append, List.length_cons]
    omega
  · intro back hevent hleft
    obtain ⟨hback, hsaved, hreturn⟩ := habove.left hevent.shifts hleft
    exact ⟨hreturn, hback, hsaved⟩

/-- A function that calls another one and returns. -/
def outerFunction : FunctionBody :=
  ⟨0, .void, (Instr.withWord .call 2).encode ++ [Opcode.ret.byte]⟩

/-- A function that saves a compare value, calls another one and returns. -/
def middleFunction : FunctionBody :=
  ⟨0, .void, Opcode.saveCompare.byte :: (Instr.withWord .call 3).encode ++ [Opcode.ret.byte]⟩

/-- A function that saves a compare value and returns. -/
def innerFunction : FunctionBody := ⟨0, .void, [Opcode.saveCompare.byte, Opcode.ret.byte]⟩

/-- A machine of the three functions in the midst of some calls. -/
def nested (frames : List Frame) (savedCompares : List Bool) : Machine :=
  { ofProgram { functions := [(1, outerFunction), (2, middleFunction), (3, innerFunction)] } with
    frames, savedCompares, state := .running }

/-- The call of the outer function, with a local variable. -/
def outerFrame (ip : Int) : Frame := ⟨1, outerFunction, ip, 0, [(7, .ofInt 5)]⟩

/-- The call of the middle function. -/
def middleFrame (ip : Int) : Frame := ⟨2, middleFunction, ip, 0, []⟩

/-- The call of the inner function. -/
def innerFrame (ip : Int) : Frame := ⟨3, innerFunction, ip, 1, []⟩

theorem nested_caller_kept : ∃ back, (nested [middleFrame 10, outerFrame 9] [false]).step = .ok back
    ∧ back.frames = [outerFrame 9] ∧ back.savedCompares = [] := by
  have hcall : (nested [outerFrame 0] []).step = .ok (nested [middleFrame 0, outerFrame 9] []) := rfl
  have henters : (nested [outerFrame 0] []).Enters (.withWord .call 2) middleFunction :=
    ⟨⟨_, rfl⟩, rfl, rfl⟩
  -- the middle function saves a compare value and calls the inner one, which does so too
  have hduring : During 1 (nested [middleFrame 0, outerFrame 9] [])
      (nested [middleFrame 10, outerFrame 9] [false]) := by
    have hsave : (nested [middleFrame 0, outerFrame 9] []).Event
        (nested [middleFrame 1, outerFrame 9] [false]) := .step rfl
    have hinner : (nested [middleFrame 1, outerFrame 9] [false]).Event
        (nested [innerFrame 0, middleFrame 10, outerFrame 9] [false]) := .step rfl
    have hagain : (nested [innerFrame 0, middleFrame 10, outerFrame 9] [false]).Event
        (nested [innerFrame 1, middleFrame 10, outerFrame 9] [false, false]) := .step rfl
    have hback : (nested [innerFrame 1, middleFrame 10, outerFrame 9] [false, false]).Event
        (nested [middleFrame 10, outerFrame 9] [false]) := .step rfl
    exact (((Relation.ReflTransGen.single ⟨hsave, by decide⟩).tail ⟨hinner, by decide⟩).tail
      ⟨hagain, by decide⟩).tail ⟨hback, by decide⟩
  have hreturn : (nested [middleFrame 10, outerFrame 9] [false]).step = .ok (nested [outerFrame 9] []) :=
    rfl
  obtain ⟨-, hcalls⟩ := call_leaves_callers hcall
  obtain ⟨f, rest, hframes, hkept⟩ := hcalls _ _ henters
  obtain ⟨rfl, rfl⟩ := List.cons.inj hframes
  obtain ⟨-, hleft⟩ := hkept _ hduring
  obtain ⟨-, hback, hsaved⟩ := hleft _ (.step hreturn) (by decide)
  exact ⟨_, hreturn, hback, List.length_eq_zero_iff.1 (Nat.le_zero.1 hsaved)⟩

end Machine

end TickScript
