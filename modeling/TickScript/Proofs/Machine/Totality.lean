import Mathlib.Logic.Relation
import TickScript.Machine.Run
import TickScript.Proofs.Machine.Act
import TickScript.Proofs.Table

/-!
# Ticks on arbitrary code

Code is whatever bytes a binary holds, so nothing can be assumed about where an instruction leads.
What every instruction does keep is an active call: only the return of the outermost one empties the
call stack, and it ends the run. An instruction that the code does not wholly hold is therefore
fetched from the code of an active call, and the fetch is a bus fault. The one exception is the last
address, `2 ^ 63 - 1`: `Machine.tick_fails_iff_at_last_address` says that a tick has no answer
exactly when one of its instructions starts there.

Code of a binary may be as long as a list can be, but an address has 63 bits, so the functions of a
program are assumed to be addressable (`Addressable`). Under that assumption a step in an active
call has one of three outcomes: the instruction is carried out, the machine is killed, or the step
starts at the last address and has no answer. The first two leave a machine to which the same
applies, so a tick is followed by induction on its budget.
-/

namespace TickScript

/-- The address behind which there is none. -/
def lastAddress : Int := 0x7FFFFFFFFFFFFFFF

namespace Machine

/-- The address of the next instruction. -/
def ip? (m : Machine) : Option Int := m.frames.head?.map (·.ip)

/-- Every function that the machine runs or can call has code with 63-bit addresses. -/
structure Addressable (m : Machine) : Prop where
  active : ∀ f ∈ m.frames, f.function.code.length < 2 ^ 63
  loaded : ∀ id f, m.program.functions.get? id = some f → f.code.length < 2 ^ 63

/-- A call is active, and all code is addressable. -/
structure InCall (m : Machine) : Prop extends m.Addressable where
  nonempty : m.frames ≠ []

/-- What matters are the frames and the program. -/
theorem InCall.of_eq {m m' : Machine} (h : m.InCall) (hframes : m'.frames = m.frames)
    (hprogram : m'.program = m.program) : m'.InCall :=
  ⟨⟨by rw [hframes]; exact h.active, by rw [hprogram]; exact h.loaded⟩, by rw [hframes]; exact h.nonempty⟩

/-- Changing the innermost call leaves one, as long as it runs the same function. -/
theorem InCall.mapFrame {m : Machine} (h : m.InCall) {change : Frame → Frame}
    (hchange : ∀ f, (change f).function = f.function) : (m.mapFrame change).InCall := by
  cases hframes : m.frames with
  | nil => exact absurd hframes h.nonempty
  | cons f rest =>
      refine ⟨⟨?_, ?_⟩, ?_⟩
      · simp only [Machine.mapFrame, hframes, List.mem_cons]
        rintro g (rfl | hg)
        · rw [hchange]
          exact h.active f (by simp [hframes])
        · exact h.active g (by simp [hframes, hg])
      · simpa [Machine.mapFrame, hframes] using h.loaded
      · simp [Machine.mapFrame, hframes]

theorem InCall.goto {m : Machine} (h : m.InCall) (ip : Int) : (m.goto ip).InCall :=
  h.mapFrame fun _ => rfl

theorem InCall.kill {m : Machine} (h : m.InCall) (code : KillCode) : (m.kill code).InCall :=
  h.of_eq rfl rfl

/-- Variables may change. -/
theorem InCall.assign {m : Machine} (h : m.InCall) (id : Id) (v : Value) : (m.assign id v).InCall := by
  rw [Machine.assign]
  split
  · exact h.mapFrame fun _ => rfl
  · exact h.of_eq rfl rfl

@[simp] theorem hear_frames (id : Id) (reply : Reply) (m : Machine) :
    (m.hear id reply).frames = m.frames := by
  simp only [hear]
  split <;> rfl

@[simp] theorem hear_program (id : Id) (reply : Reply) (m : Machine) :
    (m.hear id reply).program = m.program := by
  simp only [hear]
  split <;> rfl

end Machine

/-! ## What an instruction keeps -/

namespace Exec

variable {α β : Type}

/-- A part of an instruction has ended with a call active, and if it ended the instruction then by a
kill. -/
def Lands : EStateM.Result Stop Machine α → Prop
  | .ok _ m => m.InCall
  | .error stop m => stop = .killed ∧ m.InCall

/-- A part of an instruction that keeps a call active. -/
def Keeps (x : Exec α) : Prop := ∀ m : Machine, m.InCall → Lands (x m)

theorem keeps_pure (a : α) : Keeps (pure a : Exec α) := fun _ h => h

/-- Actions that stay in the call stay in it one behind the other. -/
theorem keeps_bind {x : Exec α} {f : α → Exec β} (hx : Keeps x) (hf : ∀ a, Keeps (f a)) :
    Keeps (x >>= f) := by
  intro m h
  have hm := hx m h
  rw [run_bind]
  cases hrun : x m with
  | ok a m' =>
      rw [hrun] at hm
      exact hf a m' hm
  | error stop m' =>
      rw [hrun] at hm
      exact hm

/-- A change of the machine keeps to the call if it keeps the frames. -/
theorem keeps_modify {f : Machine → Machine} (hf : ∀ m : Machine, m.InCall → (f m).InCall) :
    Keeps (modify f : Exec PUnit) := fun m h => hf m h

theorem keeps_get : Keeps (get : Exec Machine) := fun _ h => h

theorem keeps_kill (code : KillCode) : Keeps (kill code : Exec α) := fun _ h => ⟨rfl, h.kill code⟩

theorem keeps_push (v : Value) : Keeps (push v) := keeps_modify fun _ h => h.of_eq rfl rfl

theorem keeps_pop : Keeps pop := by
  intro m h
  rw [run_pop]
  split
  · exact ⟨rfl, h.kill _⟩
  · exact h.of_eq rfl rfl

theorem keeps_popCompare : Keeps popCompare := by
  intro m h
  rw [run_popCompare]
  split
  · exact ⟨rfl, h.kill _⟩
  · exact h.of_eq rfl rfl

theorem keeps_pushVariable (id : Id) : Keeps (pushVariable id) := by
  intro m h
  rw [run_pushVariable]
  split
  · exact h.of_eq rfl rfl
  · split
    · exact h.of_eq rfl rfl
    · split
      · exact ⟨rfl, h.kill _⟩
      · exact h.of_eq rfl rfl

theorem keeps_update (id : Id) (f : Value → Value) : Keeps (update id f) := by
  intro m h
  rw [run_update]
  split
  · exact ⟨rfl, h.kill _⟩
  · exact h.assign id _

theorem keeps_jump (conditional : Bool) (target : Int → Int) : Keeps (jump conditional target) := by
  refine keeps_modify fun m h => ?_
  split
  · exact h.mapFrame fun _ => rfl
  · exact h

theorem keeps_arithmetic (op : BinaryOp) : Keeps (arithmetic op) := by
  refine keeps_bind keeps_pop fun b => keeps_bind keeps_pop fun a => ?_
  split
  · exact keeps_kill _
  · exact keeps_push _

theorem keeps_instantiate : Keeps instantiate := by
  intro m h
  rw [run_instantiate]
  split
  · exact ⟨rfl, h.kill _⟩
  · split
    · exact h.of_eq rfl rfl
    · exact h.of_eq rfl rfl

theorem keeps_withObject (ask : Handle → Host → Except HostError Host)
    (attached : Handle → Handle → Handle) : Keeps (withObject ask attached) := by
  intro m h
  rw [run_withObject]
  split
  · exact ⟨rfl, h.kill _⟩
  · split
    · exact h.of_eq rfl rfl
    · exact h.of_eq rfl rfl

/-- A call enters a function of the program, or leaves the call stack as it is to a native. -/
theorem keeps_call (start : Int) (id : Id) : Keeps (call start id) := by
  intro m h
  rw [run_call]
  split
  · next function hfunction =>
      refine ⟨⟨?_, h.loaded⟩, by simp⟩
      simp only [List.mem_cons]
      rintro f (rfl | hf)
      · exact h.loaded id function hfunction
      · exact h.active f hf
  · split
    · exact ⟨rfl, h.kill _⟩
    · split
      · exact ⟨rfl, h.kill _⟩
      · next native _ _ arguments below _ =>
          have hheard : (m.hear id (replyTo native id arguments m)).InCall :=
            h.of_eq (Machine.hear_frames ..) (Machine.hear_program ..)
          simp only
          split
          · exact ⟨rfl, hheard.kill _⟩
          · exact (hheard.goto start).of_eq rfl rfl
          · exact hheard.of_eq rfl rfl

/-- Every operation but the return keeps a call active. -/
theorem keeps_act (start : Int) (i : Instr) (hret : i.op ≠ .ret) : Keeps (act start i) := by
  obtain ⟨op, operands, data⟩ := i
  cases op
  case ret => exact absurd rfl hret
  case pushVar => exact keeps_pushVariable _
  case popVar => exact keeps_bind keeps_pop fun _ => keeps_update _ _
  case call => exact keeps_call _ _
  case jump | jumpBy | jumpIf | jumpIfBy =>
    simp only [act]
    exact keeps_jump _ _
  case mod | div | mul | sub | add | and | or | xor | shiftLeft | shiftRight =>
    exact keeps_arithmetic _
  case compare =>
    exact keeps_bind keeps_pop fun _ => keeps_bind keeps_pop fun _ =>
      keeps_modify fun _ h => h.of_eq rfl rfl
  case combine =>
    exact keeps_bind keeps_popCompare fun _ => keeps_modify fun _ h => h.of_eq rfl rfl
  case restoreCompare =>
    exact keeps_bind keeps_popCompare fun _ => keeps_modify fun _ h => h.of_eq rfl rfl
  case allocate => exact keeps_modify fun _ h => h.mapFrame fun _ => rfl
  case free => exact keeps_modify fun _ h => h.mapFrame fun _ => rfl
  case set => exact keeps_update _ _
  case kill => exact keeps_kill _
  case pop => exact keeps_bind keeps_pop fun _ => keeps_pure _
  case pushCompare => exact keeps_bind keeps_get fun _ => keeps_push _
  case instantiate => exact keeps_instantiate
  case delete | attach | detach =>
    simp only [act, execute]
    exact keeps_withObject _ _
  case nop => exact keeps_pure _
  all_goals exact keeps_modify fun _ h => h.of_eq rfl rfl

/-- A return leaves a call active unless it ends the run. -/
theorem ret_lands {m : Machine} (h : m.InCall) (hkill : m.killFlag = false) :
    ∃ m', (ret m = .ok () m' ∨ ret m = .error .killed m') ∧ m'.Addressable
      ∧ (m'.frames ≠ [] ∨ m'.state = .finished ∨ m'.state = .killed) := by
  obtain ⟨f, frames, hframes⟩ := List.exists_cons_of_ne_nil h.nonempty
  have hleft : (m.leave f frames).Addressable :=
    ⟨fun g hg => h.active g (by rw [hframes]; exact List.mem_cons_of_mem f hg), h.loaded⟩
  rw [run_ret hframes]
  -- The result is handed over first; this may kill the machine but leaves the calls alone.
  have hover : ∃ m', (handOver f.function.returnType (m.leave f frames) = .ok () m'
        ∧ m'.killFlag = false
      ∨ handOver f.function.returnType (m.leave f frames) = .error .killed m' ∧ m'.state = .killed)
      ∧ m'.frames = frames ∧ m'.program = m.program := by
    rw [run_handOver]
    split
    · exact ⟨_, .inl ⟨rfl, hkill⟩, rfl, rfl⟩
    · cases (m.leave f frames).stack.pop? with
      | none => exact ⟨_, .inr ⟨rfl, rfl⟩, rfl, rfl⟩
      | some top => exact ⟨_, .inl ⟨rfl, hkill⟩, rfl, rfl⟩
  obtain ⟨m', hover, hcalls, hprogram⟩ := hover
  have haddr {m'' : Machine} (hc : m''.frames = frames) (hp : m''.program = m.program) :
      m''.Addressable :=
    ⟨by rw [hc]; exact hleft.active, by rw [hp]; exact h.loaded⟩
  rcases hover with ⟨hover, hkill'⟩ | ⟨hover, hstate⟩
  · simp only [run_bind, hover]
    cases frames with
    | cons g rest => exact ⟨m', .inl rfl, haddr hcalls hprogram, .inl (by simp [hcalls])⟩
    | nil =>
        simp only [List.isEmpty_nil, if_true, run_finish]
        cases m'.stack.pop? with
        | none => exact ⟨_, .inr rfl, haddr hcalls hprogram, .inr (.inr rfl)⟩
        | some top => exact ⟨_, .inl rfl, haddr hcalls hprogram, .inr (.inl (by simp [hkill']))⟩
  · simp only [run_bind, hover]
    exact ⟨m', .inr rfl, haddr hcalls hprogram, .inr (.inr hstate)⟩

end Exec

/-! ## Steps -/

namespace Machine

/-- What is left of a machine that was killed at an instruction. -/
structure KilledWith (m : Machine) (code : KillCode) : Prop where
  /-- The machine has stopped as killed. -/
  state : m.state = .killed
  /-- The flag of the kill is set. -/
  flag : m.killFlag = true
  /-- With this code. -/
  code : m.killCode = code

theorem killedWith_kill (m : Machine) (code : KillCode) : (m.kill code).KilledWith code :=
  ⟨rfl, rfl, rfl⟩

/-- At the last address a step has no answer. -/
theorem step_at_lastAddress {m : Machine} (h : m.ip? = some lastAddress) : m.step = .error ⟨m⟩ := by
  have hopcode : Exec.fetchOpcode m = .error .unaddressable m := by
    simp only [ip?, lastAddress] at h
    simp only [Exec.fetchOpcode, Exec.run_bind, Exec.run_get, h, if_true, Exec.run_throw]
  simp only [step, Exec.instruction, Exec.run_bind, Exec.run_get, hopcode]

/-- Before the code there is no instruction. -/
theorem step_of_negative {m : Machine} {f : Frame} {rest : List Frame}
    (hframes : m.frames = f :: rest) (hneg : f.ip < 0) : m.step = .ok (m.kill .busFault) := by
  have hne : ¬ f.ip = 0x7FFFFFFFFFFFFFFF := by omega
  have hopcode : Exec.fetchOpcode m = .error .killed (m.kill .busFault) := by
    simp [Exec.fetchOpcode, Exec.fetchByte, Exec.fetchWord, Exec.fetchBytes, hframes, hne, hneg]
  simp only [step, Exec.instruction, Exec.run_bind, Exec.run_get, hopcode]

/-- Where the code does not hold a whole instruction, a step kills the machine. -/
theorem step_of_decodeAt_error {m : Machine} {f : Frame} {rest : List Frame} {e : DecodeError}
    (h : m.InCall) (hframes : m.frames = f :: rest) (hlast : f.ip ≠ lastAddress)
    (hdecode : Instr.decodeAt f.function.code f.ip = .error e) :
    ∃ m', m.step = .ok m' ∧ m'.KilledWith e.killCode ∧ m'.InCall := by
  by_cases hneg : f.ip < 0
  · obtain rfl : .unaddressable = e := by simpa [Instr.decodeAt, hneg] using hdecode
    exact ⟨_, step_of_negative hframes hneg, killedWith_kill .., h.kill _⟩
  · obtain ⟨offset, hip⟩ := Int.eq_ofNat_of_zero_le (Int.not_lt.mp hneg)
    have hhead : Instr.decodeHead offset (f.function.code.drop offset) = .error e :=
      Instr.decodeAt_eq_error_iff.1 (hip ▸ hdecode)
    have hne : offset ≠ 2 ^ 63 - 1 := by
      intro heq
      exact hlast (by rw [hip, heq]; rfl)
    obtain ⟨stop, hstep⟩ := step_of_decode_error ⟨f, rest, hframes, hip, rfl⟩
      (h.active f (by simp [hframes])) hne hhead
    exact ⟨_, hstep, killedWith_kill .., (h.goto _).kill _⟩

/-- A step in an active call that does not start at the last address. -/
theorem step_lands {m : Machine} (h : m.InCall) (hkill : m.killFlag = false)
    (hlast : m.ip? ≠ some lastAddress) :
    ∃ m', m.step = .ok m' ∧ m'.Addressable
      ∧ (m'.frames ≠ [] ∨ m'.state = .finished ∨ m'.state = .killed) := by
  obtain ⟨f, rest, hframes⟩ := List.exists_cons_of_ne_nil h.nonempty
  have hip : f.ip ≠ lastAddress := by simpa [ip?, hframes] using hlast
  cases hdecode : Instr.decodeAt f.function.code f.ip with
  -- nothing can be decoded there, so the machine is killed in its call
  | error e =>
      obtain ⟨m', hstep, -, hin⟩ := step_of_decodeAt_error h hframes hip hdecode
      exact ⟨m', hstep, hin.toAddressable, .inl hin.nonempty⟩
  | ok i =>
      obtain ⟨offset, hoffset⟩ := Instr.nonneg_of_decodeAt hdecode
      obtain ⟨tail, hhead⟩ := Instr.decodeAt_eq_ok_iff.1 (hoffset ▸ hdecode)
      have hmoved : (m.goto (offset + i.size : Nat)).InCall := h.goto _
      rw [step_of_decode ⟨f, rest, hframes, hoffset, rfl⟩ (h.active f (by simp [hframes])) hhead]
      by_cases hret : i.op = .ret
      · -- a return is the one instruction that may end the outermost call
        have hact : Exec.act offset i = Exec.ret := by simp only [Exec.act, hret, Exec.execute]
        obtain ⟨m', hrun, haddr, hend⟩ :=
          Exec.ret_lands hmoved (by rw [goto_eq hframes]; exact hkill)
        refine ⟨m', ?_, haddr, hend⟩
        rw [hact]
        rcases hrun with hrun | hrun <;> rw [hrun] <;> rfl
      · -- every other one keeps a call active, also where it ends in a kill
        have hlands := Exec.keeps_act offset i hret _ hmoved
        cases hrun : Exec.act offset i (m.goto (offset + i.size : Nat)) with
        | ok _ m' =>
            rw [hrun] at hlands
            exact ⟨m', rfl, InCall.toAddressable hlands, .inl hlands.nonempty⟩
        | error stop m' =>
            rw [hrun] at hlands
            obtain ⟨rfl, hin⟩ := hlands
            exact ⟨m', rfl, hin.toAddressable, .inl hin.nonempty⟩

/-! ## Ticks -/

theorem toOption_eq_some {ε α : Type} {x : Except ε α} {a : α} (h : x.toOption = some a) :
    x = .ok a := by
  cases x with
  | error e => cases h
  | ok b => exact congrArg Except.ok (Option.some.inj h)

/-- The tick of a machine carries out an instruction in the state `now`. -/
def Executes (m now : Machine) : Prop :=
  m.state.isBusy = true ∧ ∃ count < m.tickLength,
    steps count { m with ticks := m.ticks + 1, state := .running } = .ok now
      ∧ now.state = .running ∧ now.killFlag = false

/-- Between ticks: all code is addressable, and a machine that is busy and not told to stop is in a
call. -/
structure Resting (m : Machine) : Prop extends m.Addressable where
  inCall : m.state.isBusy = true → m.killFlag = false → m.frames ≠ []

theorem Resting.toInCall {m : Machine} (h : m.Resting) (hstate : m.state = .running)
    (hkill : m.killFlag = false) : m.InCall :=
  ⟨h.toAddressable, h.inCall (by rw [hstate]; rfl) hkill⟩

/-- A step of a resting machine rests, since every function of the program is short enough to be
addressed. -/
theorem step_resting {m m' : Machine} (h : m.Resting) (hstate : m.state = .running)
    (hkill : m.killFlag = false) (hstep : m.step = .ok m') : m'.Resting := by
  by_cases hlast : m.ip? = some lastAddress
  · rw [step_at_lastAddress hlast] at hstep
    cases hstep
  · obtain ⟨next, hnext, haddr, hend⟩ := step_lands (h.toInCall hstate hkill) hkill hlast
    obtain rfl : next = m' := by simpa [hnext] using hstep
    refine ⟨haddr, fun hbusy _ => ?_⟩
    rcases hend with hframes | hend | hend
    · exact hframes
    all_goals
      rw [hend] at hbusy
      cases hbusy

/-- A step of a resting machine that runs has an answer unless it starts at the last address. -/
theorem step_fails_iff {m : Machine} (h : m.Resting) (hstate : m.state = .running)
    (hkill : m.killFlag = false) : (∃ e, m.step = .error e) ↔ m.ip? = some lastAddress := by
  refine ⟨fun ⟨e, hstep⟩ => ?_, fun hlast => ⟨⟨m⟩, step_at_lastAddress hlast⟩⟩
  by_contra hlast
  obtain ⟨next, hnext, -⟩ := step_lands (h.toInCall hstate hkill) hkill hlast
  rw [hnext] at hstep
  cases hstep

/-- So do any number of steps. -/
theorem steps_resting {m m' : Machine} (count : Nat) (h : m.Resting)
    (hsteps : steps count m = .ok m') : m'.Resting := by
  induction count generalizing m with
  | zero =>
      obtain rfl : m = m' := by simpa [steps] using hsteps
      exact h
  | succ count ih =>
      simp only [steps] at hsteps
      split at hsteps
      · obtain rfl := Except.ok.inj hsteps
        exact h
      · next hstate =>
          split at hsteps
          · obtain rfl := Except.ok.inj hsteps
            exact ⟨⟨h.active, h.loaded⟩, fun hbusy => by cases hbusy⟩
          · next hkill =>
              split at hsteps
              · cases hsteps
              · next next hstep =>
                  exact ih (step_resting h (by simpa using hstate) (by simpa using hkill) hstep)
                    hsteps

/-- Some instructions have no answer exactly when one of them starts at the last address. -/
theorem steps_of_running {m : Machine} (hstate : m.state = .running) (hkill : m.killFlag = false)
    (k : Nat) : steps (k + 1) m = match m.step with
      | .error e => .error e
      | .ok m => steps k m := by
  cases hstep : m.step <;> simp [steps, hstate, hkill, hstep]

/-- A slice fails exactly if one of its steps does, by induction on the steps left. -/
theorem steps_fails_iff (count : Nat) {m : Machine} (h : m.Resting) :
    (∃ e, steps count m = .error e) ↔ ∃ k < count, ∃ now, steps k m = .ok now
      ∧ now.state = .running ∧ now.killFlag = false ∧ now.ip? = some lastAddress := by
  induction count generalizing m with
  | zero => simp [steps]
  | succ count ih =>
      by_cases hrun : m.state = .running ∧ m.killFlag = false
      · -- a running machine takes its step, and it fails at the last address only
        obtain ⟨hstate, hkill⟩ := hrun
        have hunfold (k : Nat) := steps_of_running hstate hkill k
        cases hstep : m.step with
        | error e =>
            have hlast := (step_fails_iff h hstate hkill).mp ⟨e, hstep⟩
            rw [hunfold, hstep]
            -- the first step fails: the machine itself stands at the last address
            exact ⟨fun _ => ⟨0, by omega, m, rfl, hstate, hkill, hlast⟩, fun _ => ⟨e, rfl⟩⟩
        | ok next =>
            rw [hunfold, hstep]
            -- a failure later on is one of the machine that the step leads to
            simp only [ih (step_resting h hstate hkill hstep)]
            constructor
            · rintro ⟨k, hk, now, hnow, hend⟩
              exact ⟨k + 1, by omega, now, by rw [hunfold, hstep]; exact hnow, hend⟩
            · rintro ⟨k, hk, now, hnow, hend⟩
              cases k with
              | zero =>
                  obtain rfl : m = now := by simpa [steps] using hnow
                  rw [step_at_lastAddress hend.2.2] at hstep
                  cases hstep
              | succ k =>
                  rw [hunfold, hstep] at hnow
                  exact ⟨k, by omega, now, hnow, hend⟩
      · -- A machine that does not run takes no instruction.
        have hstill (k : Nat) {now : Machine} (hnow : steps k m = .ok now) :
            ¬ (now.state = .running ∧ now.killFlag = false) := by
          cases k with
          | zero =>
              obtain rfl : m = now := by simpa [steps] using hnow
              exact hrun
          | succ k =>
              simp only [steps] at hnow
              split_ifs at hnow with hstate hkill
              · obtain rfl := Except.ok.inj hnow
                exact hrun
              · obtain rfl := Except.ok.inj hnow
                simp
              · exact absurd ⟨by simpa using hstate, by simpa using hkill⟩ hrun
        constructor
        · rintro ⟨e, hsteps⟩
          simp only [steps] at hsteps
          split_ifs at hsteps with hstate hkill
          exact absurd ⟨by simpa using hstate, by simpa using hkill⟩ hrun
        · rintro ⟨k, -, now, hnow, hstate, hkill, -⟩
          exact absurd ⟨hstate, hkill⟩ (hstill k hnow)

/-- The start of a tick. -/
theorem Resting.start {m : Machine} (h : m.Resting) (hbusy : m.state.isBusy = true) :
    Resting { m with ticks := m.ticks + 1, state := .running } :=
  ⟨⟨h.active, h.loaded⟩, fun _ hkill => h.inCall hbusy hkill⟩

/-- A tick is a slice. -/
theorem tick_resting {m m' : Machine} (h : m.Resting) (htick : m.tick = .ok m') : m'.Resting := by
  simp only [tick] at htick
  split at htick
  · next hbusy => exact steps_resting _ (h.start hbusy) htick
  · obtain rfl := Except.ok.inj htick
    exact h

/-- A call of the host starts at the beginning of a function. -/
theorem call_resting {m m' : Machine} {name : Text} {args : List Value}
    (hfits : ∀ id f, m.program.functions.get? id = some f → f.code.length < 2 ^ 63)
    (hcall : m.call name args = .ok m') : m'.Resting := by
  simp only [call, callId] at hcall
  split at hcall
  · cases hcall
  · split at hcall
    · cases hcall
    · next function hfunction =>
        split at hcall
        · cases hcall
        · obtain rfl := Except.ok.inj hcall
          refine ⟨⟨?_, hfits⟩, fun _ _ => by simp⟩
          simp only [List.mem_singleton]
          rintro f rfl
          exact hfits _ function hfunction

/-- A tick has no answer exactly when one of its instructions starts at the last address. Every
instruction of a tick is fetched from the code of an active call; at any other address it has an
answer, and where the code does not wholly hold the instruction, that is a bus fault. This is about
natives that answer and may kill the machine (`Reply`), not about ones that call it in turn. -/
theorem tick_fails_iff_at_last_address {m started now : Machine} {name : Text} {args : List Value}
    (hfits : ∀ id f, m.program.functions.get? id = some f → f.code.length < 2 ^ 63)
    (hcall : m.call name args = .ok started)
    (hticks : Relation.ReflTransGen (fun a b => a.tick = .ok b) started now) :
    ((∃ e, now.tick = .error e) ↔ ∃ at_, now.Executes at_ ∧ at_.ip? = some lastAddress)
      ∧ ∀ at_, now.Executes at_ → ∃ f rest, at_.frames = f :: rest
        ∧ (f.ip ≠ lastAddress → ∃ next, at_.step = .ok next
          ∧ ∀ e, Instr.decodeAt f.function.code f.ip = .error e → e.killCode = .busFault →
            next.KilledWith .busFault) := by
  -- the invariant holds after any number of ticks
  have hrest : now.Resting := by
    induction hticks with
    | refl => exact call_resting hfits hcall
    | tail _ htick ih => exact tick_resting ih htick
  refine ⟨?_, ?_⟩
  · by_cases hbusy : now.state.isBusy = true
    · simp only [tick, hbusy, if_true, Executes, true_and]
      rw [steps_fails_iff _ (hrest.start hbusy)]
      exact ⟨fun ⟨k, hk, at_, hat, hstate, hkill, hlast⟩ =>
          ⟨at_, ⟨k, hk, hat, hstate, hkill⟩, hlast⟩,
        fun ⟨at_, ⟨k, hk, hat, hstate, hkill⟩, hlast⟩ =>
          ⟨k, hk, at_, hat, hstate, hkill, hlast⟩⟩
    · simp [tick, hbusy, Executes]
  · -- every instruction is taken in an active call, whose code it is fetched from
    rintro at_ ⟨hbusy, count, -, hat, hstate, hkill⟩
    have hin := (steps_resting count (hrest.start hbusy) hat).toInCall hstate hkill
    obtain ⟨f, rest, hframes⟩ := List.exists_cons_of_ne_nil hin.nonempty
    refine ⟨f, rest, hframes, fun hip => ?_⟩
    obtain ⟨next, hstep, -⟩ := step_lands hin hkill (by simpa [ip?, hframes] using hip)
    refine ⟨next, hstep, fun e hdecode hfault => ?_⟩
    obtain ⟨killed, hkilled, hwith, -⟩ := step_of_decodeAt_error hin hframes hip hdecode
    obtain rfl : next = killed := by simpa [hstep] using hkilled
    rwa [hfault] at hwith

/-- A program whose one function jumps to the last address. -/
def leapProgram : Program :=
  { functions := [(Name.id [0x66], ⟨0, .void, (Instr.withWord .jump 0x7FFFFFFFFFFFFFFF).encode⟩)] }

/-- The machine in which the function of `leapProgram` was called. -/
def leapStarted : Machine :=
  { ofProgram leapProgram with
    frames := [{ id := Name.id [0x66]
                 function := ⟨0, .void, (Instr.withWord .jump 0x7FFFFFFFFFFFFFFF).encode⟩ }]
    state := .running }

theorem leapStarted_tick_fails :
    (ofProgram leapProgram).call [0x66] [] = .ok leapStarted ∧ ∃ e, leapStarted.tick = .error e := by
  have hcall : (ofProgram leapProgram).call [0x66] [] = .ok leapStarted := rfl
  refine ⟨hcall, (tick_fails_iff_at_last_address ?_ hcall .refl).1.mpr ?_⟩
  · intro id f hf
    have hmem := Table.get?_mem hf
    simp only [ofProgram, leapProgram, List.mem_singleton, Prod.mk.injEq] at hmem
    rw [hmem.2]
    decide
  · exact ⟨{ leapStarted.goto lastAddress with ticks := 1 },
      ⟨rfl, 1, by decide, by rfl, rfl, rfl⟩, rfl⟩

end Machine

end TickScript
