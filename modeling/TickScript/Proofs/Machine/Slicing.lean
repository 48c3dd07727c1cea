import TickScript.Machine.Run
import TickScript.Proofs.Machine.Act

/-!
# Slicing a run into ticks

A host gives a machine a budget for every tick, and it may choose another one each time. What the
machine computes does not depend on the choice, as long as no native looks at the clock: the budget
and the count of ticks are read by nothing but the loop that takes instructions and the natives.

The instructions of a run therefore form one sequence (`Machine.after`), from which a tick takes the
next few. `Machine.slicing_unobservable` says so for the machines behind the single instructions and
for the ends of runs, and says what a tick and a native that is not done may do.

The proof separates three things. A step does the same at any pace, which is the only part that
looks at instructions (`Steady`, one lemma for each part). The sequence of machines without their
clocks is then a function of the machine one starts from. And a tick is a walk along this sequence
that stops for one of the reasons in `Walks`, so two hosts with different budgets walk along the
same sequence and differ only in where they pause.
-/

namespace TickScript

namespace Machine

/-! ## Clock and budget -/

/-- The machine with another count of ticks and another budget. -/
def pace (ticks : UInt64) (budget : Int) (m : Machine) : Machine := { m with ticks, budget }

/-- All of a machine but its count of ticks and its budget. -/
def core (m : Machine) : Machine := m.pace 0 0

end Machine

/-- A native whose reply depends on its arguments and on how often it was called, not on the clock. -/
def Native.IgnoresClock (native : Native) : Prop :=
  ∀ call ticks, native.reply { call with ticks } = native.reply call

namespace Machine

/-- No native looks at the clock. -/
def IgnoresClock (m : Machine) : Prop :=
  ∀ id native, m.natives.get? id = some native → native.IgnoresClock

variable {m : Machine} {t : UInt64} {b : Int}

section

variable (m : Machine) (t : UInt64) (b : Int)

@[simp] theorem pace_program : (m.pace t b).program = m.program := rfl

@[simp] theorem pace_natives : (m.pace t b).natives = m.natives := rfl

@[simp] theorem pace_host : (m.pace t b).host = m.host := rfl

@[simp] theorem pace_frames : (m.pace t b).frames = m.frames := rfl

@[simp] theorem pace_stack : (m.pace t b).stack = m.stack := rfl

@[simp] theorem pace_savedCompares : (m.pace t b).savedCompares = m.savedCompares := rfl

@[simp] theorem pace_compareFlag : (m.pace t b).compareFlag = m.compareFlag := rfl

@[simp] theorem pace_compareValue : (m.pace t b).compareValue = m.compareValue := rfl

@[simp] theorem pace_killFlag : (m.pace t b).killFlag = m.killFlag := rfl

@[simp] theorem pace_state : (m.pace t b).state = m.state := rfl

@[simp] theorem pace_lookup? (id : Id) : (m.pace t b).lookup? id = m.lookup? id := rfl

end

theorem pace_mapFrame (f : Frame → Frame) : (m.pace t b).mapFrame f = (m.mapFrame f).pace t b := by
  cases hframes : m.frames <;> simp [mapFrame, pace, hframes]

theorem natives_mapFrame (f : Frame → Frame) : (m.mapFrame f).natives = m.natives := by
  simp only [mapFrame]
  cases m.frames <;> rfl

theorem pace_assign (id : Id) (v : Value) : (m.pace t b).assign id v = (m.assign id v).pace t b := by
  have hlocals : (m.pace t b).locals = m.locals := rfl
  simp only [assign, hlocals]
  split
  · exact pace_mapFrame _
  · rfl

theorem natives_assign (id : Id) (v : Value) : (m.assign id v).natives = m.natives := by
  simp only [assign]
  split
  · exact natives_mapFrame _
  · rfl

theorem pace_hear (id : Id) (reply : Reply) :
    (m.pace t b).hear id reply = (m.hear id reply).pace t b := by
  simp only [hear]
  split <;> rfl

theorem natives_hear (id : Id) (reply : Reply) : (m.hear id reply).natives = m.natives := by
  simp only [hear]
  split <;> rfl

end Machine

/-! ## Instructions do not look at the clock -/

namespace Exec

variable {α β : Type} {N : Table Id Native}

/-- What a part of an instruction leaves, with another count of ticks and another budget. -/
def paced (t : UInt64) (b : Int) : EStateM.Result Stop Machine α → EStateM.Result Stop Machine α
  | .ok a m => .ok a (m.pace t b)
  | .error e m => .error e (m.pace t b)

/-- The machine that a part of an instruction leaves. -/
def left : EStateM.Result Stop Machine α → Machine
  | .ok _ m => m
  | .error _ m => m

/-- A part of an instruction does the same at any pace, and leaves the natives alone. -/
def Steady (N : Table Id Native) (x : Exec α) : Prop :=
  ∀ m : Machine, m.natives = N →
    (∀ t b, x (m.pace t b) = paced t b (x m)) ∧ (left (x m)).natives = N

theorem steady_pure (a : α) : Steady N (pure a : Exec α) := fun _ h => ⟨fun _ _ => rfl, h⟩

/-- Steady actions are steady one behind the other. -/
theorem steady_bind {x : Exec α} {f : α → Exec β} (hx : Steady N x) (hf : ∀ a, Steady N (f a)) :
    Steady N (x >>= f) := by
  intro m hm
  obtain ⟨hpace, hnatives⟩ := hx m hm
  simp only [run_bind, hpace]
  cases hrun : x m with
  | ok a m' =>
      rw [hrun] at hnatives
      exact hf a m' hnatives
  | error e m' =>
      rw [hrun] at hnatives
      exact ⟨fun _ _ => rfl, hnatives⟩

/-- A change is steady if it neither looks at the clock nor touches the natives. -/
theorem steady_modify {f : Machine → Machine}
    (hpace : ∀ (m : Machine) t b, f (m.pace t b) = (f m).pace t b)
    (hnatives : ∀ m, (f m).natives = m.natives) : Steady N (modify f : Exec PUnit) := by
  intro m hm
  refine ⟨fun t b => ?_, ?_⟩
  · simp only [run_modify, paced, hpace]
  · simp only [run_modify, left, hnatives, hm]

theorem steady_kill (code : KillCode) : Steady N (kill code : Exec α) :=
  fun _ h => ⟨fun _ _ => rfl, h⟩

theorem steady_push (v : Value) : Steady N (push v) := steady_modify (fun _ _ _ => rfl) fun _ => rfl

theorem steady_pop : Steady N pop := by
  intro m hm
  simp only [run_pop, Machine.pace_stack]
  cases m.stack.pop? with
  | none => exact ⟨fun _ _ => rfl, hm⟩
  | some top => exact ⟨fun _ _ => rfl, hm⟩

theorem steady_popCompare : Steady N popCompare := by
  intro m hm
  simp only [run_popCompare,
    Machine.pace_savedCompares]
  cases m.savedCompares with
  | nil => exact ⟨fun _ _ => rfl, hm⟩
  | cons cv saved => exact ⟨fun _ _ => rfl, hm⟩

theorem steady_fetchBytes (count : Nat) : Steady N (fetchBytes count) := by
  intro m hm
  simp only [fetchBytes, run_bind, run_get,
    Machine.pace_frames]
  cases m.frames with
  | nil => exact ⟨fun _ _ => rfl, hm⟩
  | cons f rest =>
      simp only
      split
      · exact ⟨fun _ _ => rfl, hm⟩
      · split
        · exact ⟨fun _ _ => rfl, hm⟩
        · exact ⟨fun _ _ => rfl, hm⟩

theorem steady_fetchOpcode : Steady N fetchOpcode := by
  intro m hm
  by_cases hlast : m.frames.head?.map (·.ip) = some 0x7FFFFFFFFFFFFFFF
  · have hstop (m' : Machine) (h : m'.frames = m.frames) :
        fetchOpcode m' = .error .unaddressable m' := by
      simp only [fetchOpcode, run_bind, run_get, h, hlast, if_true, run_throw]
    rw [hstop m rfl]
    exact ⟨fun t b => hstop (m.pace t b) rfl, hm⟩
  · have hfetch (m' : Machine) (h : m'.frames = m.frames) : fetchOpcode m' = fetchByte m' := by
      simp only [fetchOpcode, run_bind, run_get, h, hlast, if_false]
    have hbyte : Steady N fetchByte :=
      steady_bind (steady_bind (steady_fetchBytes 1) fun _ => steady_pure _) fun _ => steady_pure _
    rw [hfetch m rfl]
    refine ⟨fun t b => ?_, (hbyte m hm).2⟩
    rw [hfetch (m.pace t b) rfl]
    exact (hbyte m hm).1 t b

theorem steady_fetchOperands : (operands : List Operand) → Steady N (fetchOperands operands)
  | [] => steady_pure _
  | _ :: rest =>
    steady_bind (steady_bind (steady_fetchBytes _) fun _ => steady_pure _) fun _ =>
      steady_bind (steady_fetchOperands rest) fun _ => steady_pure _

theorem steady_fetchInstr (op : Opcode) : Steady N (fetchInstr op) := by
  refine steady_bind (steady_fetchOperands _) fun words => ?_
  split
  · exact steady_bind (steady_fetchBytes _) fun _ => steady_pure _
  · exact steady_pure _

theorem steady_pushVariable (id : Id) : Steady N (pushVariable id) := by
  intro m hm
  simp only [run_pushVariable, Machine.pace_lookup?]
  split
  · exact ⟨fun _ _ => rfl, hm⟩
  · split
    · exact ⟨fun _ _ => rfl, hm⟩
    · cases m.lookup? id with
      | none => exact ⟨fun _ _ => rfl, hm⟩
      | some v => exact ⟨fun _ _ => rfl, hm⟩

theorem steady_update (id : Id) (f : Value → Value) : Steady N (update id f) := by
  intro m hm
  simp only [run_update, Machine.pace_lookup?]
  cases m.lookup? id with
  | none => exact ⟨fun _ _ => rfl, hm⟩
  | some old =>
      simp only [Machine.pace_assign]
      exact ⟨fun _ _ => rfl, (Machine.natives_assign id _).trans hm⟩

theorem steady_mapFrame (f : Frame → Frame) :
    Steady N (modify (·.mapFrame f) : Exec PUnit) :=
  steady_modify (fun _ _ _ => Machine.pace_mapFrame f) fun _ => Machine.natives_mapFrame f

theorem steady_jump (conditional : Bool) (target : Int → Int) : Steady N (jump conditional target) := by
  refine steady_modify (fun m t b => ?_) fun m => ?_
  · simp only [Machine.pace_compareFlag, Machine.pace_compareValue, Machine.pace_mapFrame]
    split <;> rfl
  · split
    · exact Machine.natives_mapFrame _
    · rfl

theorem steady_arithmetic (op : BinaryOp) : Steady N (arithmetic op) := by
  refine steady_bind steady_pop fun b => steady_bind steady_pop fun a => ?_
  split
  · exact steady_kill _
  · exact steady_push _

theorem steady_instantiate : Steady N instantiate := by
  intro m hm
  simp only [run_instantiate, Machine.pace_stack,
    Machine.pace_host]
  cases m.stack.pop? with
  | none => exact ⟨fun _ _ => rfl, hm⟩
  | some top =>
      simp only
      cases m.host.instantiate top.1 with
      | error _ => exact ⟨fun _ _ => rfl, hm⟩
      | ok made => exact ⟨fun _ _ => rfl, hm⟩

theorem steady_withObject (ask : Handle → Host → Except HostError Host)
    (attached : Handle → Handle → Handle) : Steady N (withObject ask attached) := by
  intro m hm
  simp only [run_withObject, Machine.pace_stack,
    Machine.pace_host]
  cases m.stack.pop? with
  | none => exact ⟨fun _ _ => rfl, hm⟩
  | some top =>
      simp only
      cases ask (Int64.ofInt top.1.toInt) m.host with
      | error _ => exact ⟨fun _ _ => rfl, hm⟩
      | ok host => exact ⟨fun _ _ => rfl, hm⟩

theorem steady_handOver (type : VarType) : Steady N (handOver type) := by
  rw [handOver]
  split
  · exact steady_pure _
  · exact steady_bind steady_pop fun _ => steady_push _

theorem steady_finish : Steady N finish :=
  steady_bind steady_pop fun _ => steady_modify (fun _ _ _ => rfl) fun _ => rfl

theorem steady_ret : Steady N ret := by
  intro m hm
  cases hframes : m.frames with
  | nil => simpa [ret, hframes, Machine.pace_frames]
      using steady_pure () m hm
  | cons f frames =>
      have hrest : Steady N (handOver f.function.returnType >>= fun _ =>
          if frames.isEmpty then finish else pure ()) := by
        refine steady_bind (steady_handOver _) fun _ => ?_
        split
        · exact steady_finish
        · exact steady_pure _
      obtain ⟨hpace, hnatives⟩ := hrest (m.leave f frames) hm
      rw [run_ret hframes]
      refine ⟨fun t b => ?_, hnatives⟩
      rw [run_ret (m := m.pace t b) hframes]
      exact hpace t b

/-- A call is the only operation that hands on the clock, and only to natives. -/
theorem steady_call (hN : ∀ id native, N.get? id = some native → native.IgnoresClock) (start : Int)
    (id : Id) : Steady N (call start id) := by
  rintro m rfl
  simp only [run_call, Machine.pace_program,
    Machine.pace_natives,
    Machine.pace_stack]
  cases m.program.functions.get? id with
  | some function => exact ⟨fun _ _ => rfl, rfl⟩
  | none =>
      simp only
      cases hnative : m.natives.get? id with
      | none => exact ⟨fun _ _ => rfl, rfl⟩
      | some native =>
          simp only
          cases m.stack.popMany? native.arity with
          | none => exact ⟨fun _ _ => rfl, rfl⟩
          | some taken =>
              -- the native is the one thing that could look at the clock, and it does not
              have hreply (t : UInt64) (b : Int) :
                  replyTo native id taken.1 (m.pace t b) = replyTo native id taken.1 m :=
                hN id native hnative ⟨_, m.ticks, taken.1⟩ t
              simp only [hreply, Machine.pace_hear]
              cases (replyTo native id taken.1 m).answer with
              | failed => exact ⟨fun _ _ => rfl, Machine.natives_hear id _⟩
              | done result => exact ⟨fun _ _ => rfl, Machine.natives_hear id _⟩
              | pending =>
                  refine ⟨fun t b => ?_, ?_⟩
                  · simp only [Machine.pace_mapFrame]
                    rfl
                  · exact (Machine.natives_mapFrame _).trans (Machine.natives_hear id _)

/-- Every instruction is steady if the natives are. -/
theorem steady_act (hN : ∀ id native, N.get? id = some native → native.IgnoresClock) (start : Int)
    (i : Instr) : Steady N (act start i) := by
  obtain ⟨op, operands, data⟩ := i
  cases op
  case ret => exact steady_ret
  case pushVar => exact steady_pushVariable _
  case popVar => exact steady_bind steady_pop fun _ => steady_update _ _
  case call => exact steady_call hN _ _
  case jump | jumpBy | jumpIf | jumpIfBy =>
    simp only [act]
    exact steady_jump _ _
  case mod | div | mul | sub | add | and | or | xor | shiftLeft | shiftRight =>
    exact steady_arithmetic _
  case compare =>
    exact steady_bind steady_pop fun _ => steady_bind steady_pop fun _ =>
      steady_modify (fun _ _ _ => rfl) fun _ => rfl
  case combine | restoreCompare =>
    exact steady_bind steady_popCompare fun _ => steady_modify (fun _ _ _ => rfl) fun _ => rfl
  case allocate | free => exact steady_mapFrame _
  case set => exact steady_update _ _
  case kill => exact steady_kill _
  case pop => exact steady_bind steady_pop fun _ => steady_pure _
  case pushCompare => exact fun m hm => ⟨fun _ _ => rfl, hm⟩
  case instantiate => exact steady_instantiate
  case delete | attach | detach =>
    simp only [act, execute]
    exact steady_withObject _ _
  case nop => exact steady_pure _
  all_goals exact steady_modify (fun _ _ _ => rfl) fun _ => rfl

theorem steady_read : Steady N read := by
  unfold read
  refine steady_bind steady_fetchOpcode fun byte => ?_
  split
  · exact steady_kill _
  · exact steady_fetchInstr _

/-- A whole instruction does the same at any pace. -/
theorem steady_instruction (hN : ∀ id native, N.get? id = some native → native.IgnoresClock) :
    Steady N instruction := by
  intro m hm
  have hplace (t : UInt64) (b : Int) : (m.pace t b).place = m.place := rfl
  simp only [instruction_eq, hplace]
  exact steady_bind steady_read (fun i => steady_act hN m.place i) m hm

end Exec

namespace Machine

/-- What a step leaves, with another count of ticks and another budget. -/
def repaced (t : UInt64) (b : Int) : Except Unaddressable Machine → Except Unaddressable Machine
  | .ok m => .ok (m.pace t b)
  | .error e => .error ⟨e.machine.pace t b⟩

variable {m m' now : Machine}

theorem IgnoresClock.of_natives (h : m.IgnoresClock) (hnatives : m'.natives = m.natives) :
    m'.IgnoresClock := fun id native hget => h id native (hnatives ▸ hget)

/-- A step does the same whatever the clock and the budget are. -/
theorem step_pace (h : m.IgnoresClock) (t : UInt64) (b : Int) :
    (m.pace t b).step = repaced t b m.step := by
  simp only [step, (Exec.steady_instruction h m rfl).1 t b]
  cases Exec.instruction m with
  | ok _ m' => rfl
  | error stop m' => cases stop <;> rfl

/-- No step changes the natives. -/
theorem natives_step (h : m.IgnoresClock) (hstep : m.step = .ok m') : m'.natives = m.natives := by
  have hleft := (Exec.steady_instruction h m rfl).2
  simp only [step] at hstep
  cases hrun : Exec.instruction m with
  | ok _ left =>
      rw [hrun] at hstep hleft
      obtain rfl := Except.ok.inj hstep
      exact hleft
  | error stop left =>
      rw [hrun] at hstep hleft
      cases stop with
      | killed =>
          obtain rfl := Except.ok.inj hstep
          exact hleft
      | unaddressable => cases hstep

/-! ## The sequence of instructions -/

/-- The machine that goes on. -/
def resumed (m : Machine) : Machine := { m with state := .running }

/-- What the next instruction leaves. A machine takes none when it is not busy or is to be stopped. -/
def next? (m : Machine) : Option (Except Unaddressable Machine) :=
  if m.state.isBusy && !m.killFlag then some m.resumed.step else none

/-- The machine behind a number of instructions, whatever ticks they are taken in. -/
def after : Nat → Machine → Option Machine
  | 0, m => some m
  | k + 1, m =>
    match m.next? with
    | some (.ok m) => after k m
    | _ => none

/-- The machine as it rests once it takes no more instructions: one that was to be stopped is killed. -/
def stopped (m : Machine) : Machine :=
  if m.state.isBusy && m.killFlag then { m with state := .killed } else m

/-- Going on for `j + k` steps is going on for `j` and then for `k`. -/
theorem after_add (j k : Nat) : after (j + k) m = (after j m).bind (after k) := by
  induction j generalizing m with
  | zero => simp [after]
  | succ j ih =>
      rw [Nat.add_right_comm]
      simp only [after]
      cases m.next? with
      | none => rfl
      | some result =>
          cases result with
          | error e => rfl
          | ok m' => exact ih

theorem after_succ {k : Nat} (h : after k m = some now) :
    after (k + 1) m = match now.next? with
      | some (.ok m') => some m'
      | _ => none := by
  rw [after_add, h]
  rfl

/-- What a machine does next is the same for its core, which has clock and budget removed. -/
theorem core_next? (h : m.IgnoresClock) : m.core.next? = m.next?.map (repaced 0 0) := by
  have hunfold : m.core.next?
      = if m.state.isBusy && !m.killFlag then some (m.resumed.pace 0 0).step else none := rfl
  rw [hunfold, step_pace (m := m.resumed) (h.of_natives rfl), next?]
  split <;> rfl

/-! ## Ticks -/

/-- The machines behind each of at most `count` instructions, as long as the machine runs. -/
def stepsTrail : (count : Nat) → Machine → List Machine
  | 0, _ => []
  | count + 1, m =>
    if m.state ≠ .running then []
    else if m.killFlag then []
    else match m.step with
      | .error _ => []
      | .ok m => m :: stepsTrail count m

/-- The machine as a tick starts it. -/
def begun (m : Machine) : Machine := { m with ticks := m.ticks + 1, state := .running }

/-- The machines behind each instruction of a tick. -/
def tickTrail (m : Machine) : List Machine :=
  if m.state.isBusy then stepsTrail m.tickLength m.begun else []

/-- The machine with another budget. -/
def withBudget (budget : Int) (m : Machine) : Machine := { m with budget }

/-- The machine after a number of ticks, each with a budget of its own. -/
def ticked (budgets : Nat → Int) : Nat → Machine → Except Unaddressable Machine
  | 0, m => .ok m
  | n + 1, m => do
    let m ← m.ticked budgets n
    tick (m.withBudget (budgets n))

/-- The machines behind each instruction of a number of ticks, each with a budget of its own. -/
def trail (budgets : Nat → Int) : Nat → Machine → List Machine
  | 0, _ => []
  | n + 1, m =>
    m.trail budgets n ++ match m.ticked budgets n with
      | .ok m => tickTrail (m.withBudget (budgets n))
      | .error _ => []

/-- A place in the sequence of instructions: `k` instructions have been taken, and the machine is
where they lead, up to its clock and budget. -/
def Reached (m : Machine) (k : Nat) (now : Machine) : Prop :=
  ∃ place, after k m.core = some place ∧ (now.core = place ∨ now.core = place.stopped)

/-- The sequence of instructions fails behind `k` of them. -/
def FailsAt (m : Machine) (k : Nat) (e : Unaddressable) : Prop :=
  ∃ place, after k m.core = some place ∧ place.next? = some (.error ⟨e.machine.core⟩)

theorem length_stepsTrail_le (count : Nat) (m : Machine) : (stepsTrail count m).length ≤ count := by
  fun_induction stepsTrail count m with
  | case1 => exact Nat.le_refl 0
  | case2 => exact Nat.zero_le _
  | case3 => exact Nat.zero_le _
  | case4 => exact Nat.zero_le _
  | case5 _ _ _ _ _ _ ih => exact Nat.succ_le_succ ih

/-- What a machine that runs takes as its next instruction. -/
theorem core_next?_of_running (h : m.IgnoresClock) (hstate : m.state = .running)
    (halive : m.killFlag = false) : m.core.next? = some (repaced 0 0 m.step) := by
  have hresumed : m.resumed = m := by rw [resumed, ← hstate]
  rw [core_next? h, next?, hstate, halive, hresumed]
  rfl

/-- A slice that ends in a kill stops at the same core. -/
theorem core_stopped (hbusy : m.state.isBusy = true) (hflag : m.killFlag = true) :
    m.core.stopped = ({ m with state := .killed } : Machine).core := by
  rw [stopped, if_pos (by simp [core, hbusy, hflag])]
  rfl

section

variable (count : Nat)

/-- Only a running machine takes steps. -/
theorem steps_of_idle (h : m.state ≠ .running) :
    steps (count + 1) m = .ok m ∧ stepsTrail (count + 1) m = [] :=
  ⟨by rw [steps, if_pos h], by rw [stepsTrail, if_pos h]⟩

/-- A flagged machine is killed before its next step. -/
theorem steps_of_flagged (h : m.state = .running) (hflag : m.killFlag = true) :
    steps (count + 1) m = .ok { m with state := .killed } ∧ stepsTrail (count + 1) m = [] :=
  ⟨by rw [steps, if_neg (not_not_intro h), if_pos hflag],
    by rw [stepsTrail, if_neg (not_not_intro h), if_pos hflag]⟩

/-- A step that fails ends the slice. -/
theorem steps_of_error {e : Unaddressable} (h : m.state = .running) (halive : m.killFlag = false)
    (hstep : m.step = .error e) : steps (count + 1) m = .error e ∧ stepsTrail (count + 1) m = [] := by
  simp [steps, stepsTrail, h, halive, hstep]

/-- Otherwise the slice goes on with one step less. -/
theorem steps_of_ok (h : m.state = .running) (halive : m.killFlag = false) (hstep : m.step = .ok now) :
    steps (count + 1) m = steps count now
      ∧ stepsTrail (count + 1) m = now :: stepsTrail count now := by
  simp [steps, stepsTrail, h, halive, hstep]

end

/-- A machine takes one instruction after the other, each of which leaves one of the listed machines,
and rests: where it is, or killed because it was to be stopped. -/
inductive Walks : Machine → List Machine → Machine → Prop
  /-- No instruction is taken. -/
  | rest (m : Machine) : Walks m [] m
  /-- The tick notices that the machine was killed. -/
  | stop {m : Machine} (running : m.state = .running) (flagged : m.killFlag = true) :
      Walks m [] { m with state := .killed }
  /-- An instruction is taken, and the walk goes on behind it. -/
  | step {m next final : Machine} {more : List Machine} (running : m.state = .running)
      (alive : m.killFlag = false) (taken : m.step = .ok next) (rest : Walks next more final) :
      Walks m (next :: more) final

/-- The trail of a tick names every instruction that the tick takes. -/
theorem walks_of_steps {count : Nat} {final : Machine} (h : steps count m = .ok final) :
    Walks m (stepsTrail count m) final := by
  induction count generalizing m with
  | zero =>
      obtain rfl := Except.ok.inj h
      exact .rest _
  | succ count ih =>
      by_cases hstate : m.state = .running
      · cases hflag : m.killFlag with
        | true =>
            obtain ⟨hsteps, htrail⟩ := steps_of_flagged count hstate hflag
            rw [htrail]
            obtain rfl := Except.ok.inj (hsteps.symm.trans h)
            exact .stop hstate hflag
        | false =>
            cases hstep : m.step with
            | error e =>
                have hsteps := (steps_of_error count hstate hflag hstep).1
                cases hsteps.symm.trans h
            | ok next =>
                obtain ⟨hsteps, htrail⟩ := steps_of_ok count hstate hflag hstep
                rw [htrail]
                exact .step hstate hflag hstep (ih (hsteps.symm.trans h))
      · obtain ⟨hsteps, htrail⟩ := steps_of_idle count hstate
        rw [htrail]
        obtain rfl := Except.ok.inj (hsteps.symm.trans h)
        exact .rest _

/-- The instructions of a tick are the next ones of the sequence. -/
theorem steps_follow (count : Nat) (h : m.IgnoresClock) :
    (∀ i now, (stepsTrail count m)[i]? = some now → after (i + 1) m.core = some now.core)
    ∧ (∀ m', steps count m = .ok m' →
      m.Reached (stepsTrail count m).length m' ∧ m'.natives = m.natives)
    ∧ (∀ e, steps count m = .error e → m.FailsAt (stepsTrail count m).length e) := by
  -- the induction is on the steps of the slice; the core after them does not depend on how many are
  -- left
  induction count generalizing m with
  | zero =>
      refine ⟨by simp [stepsTrail], ?_, by simp [steps]⟩
      intro m' hsteps
      obtain rfl := Except.ok.inj hsteps
      exact ⟨⟨_, rfl, .inl rfl⟩, rfl⟩
  | succ count ih =>
      by_cases hstate : m.state = .running
      · cases hflag : m.killFlag with
        | true =>
            -- killed before the next step
            obtain ⟨hsteps, htrail⟩ := steps_of_flagged count hstate hflag
            rw [hsteps, htrail]
            refine ⟨by simp, ?_, by simp⟩
            intro m' hm'
            obtain rfl := Except.ok.inj hm'
            exact ⟨⟨m.core, rfl, .inr (core_stopped (by rw [hstate]; rfl) hflag).symm⟩, rfl⟩
        | false =>
            have hnext := core_next?_of_running h hstate hflag
            cases hstep : m.step with
            | error e =>
                -- the next step fails
                obtain ⟨hsteps, htrail⟩ := steps_of_error count hstate hflag hstep
                rw [hsteps, htrail]
                refine ⟨by simp, by simp, ?_⟩
                intro e' he'
                obtain rfl := Except.error.inj he'
                exact ⟨m.core, rfl, by rw [hnext, hstep]; rfl⟩
            | ok next =>
                have hnatives := natives_step h hstep
                obtain ⟨hpassed, hreached, hfails⟩ := ih (h.of_natives hnatives)
                -- one step, and from there the induction hypothesis
                have hafter (k : Nat) : after (k + 1) m.core = after k next.core := by
                  simp only [after, hnext, hstep]
                  rfl
                obtain ⟨hsteps, htrail⟩ := steps_of_ok count hstate hflag hstep
                rw [hsteps, htrail, List.length_cons]
                refine ⟨fun i now hget => ?_, fun m' hm' => ?_, fun e he => ?_⟩
                · rw [hafter]
                  cases i with
                  | zero =>
                      obtain rfl : next = now := by simpa using hget
                      rfl
                  | succ i => exact hpassed i now (by simpa using hget)
                · obtain ⟨⟨place, hplace, hcore⟩, hsame⟩ := hreached m' hm'
                  exact ⟨⟨place, by rw [hafter]; exact hplace, hcore⟩, hsame.trans hnatives⟩
                · obtain ⟨place, hplace, hnone⟩ := hfails e he
                  exact ⟨place, by rw [hafter]; exact hplace, hnone⟩
      · -- waiting or ended: the slice does nothing
        obtain ⟨hsteps, htrail⟩ := steps_of_idle count hstate
        rw [hsteps, htrail]
        refine ⟨by simp, ?_, by simp⟩
        intro m' hm'
        obtain rfl := Except.ok.inj hm'
        exact ⟨⟨m.core, rfl, .inl rfl⟩, rfl⟩

theorem length_tickTrail_le (m : Machine) :
    (tickTrail m).length ≤ if m.budget ≤ 0 then 256 else m.budget.toNat := by
  have hcount : m.tickLength = if m.budget ≤ 0 then 256 else m.budget.toNat := by
    rw [tickLength]
    split <;> rfl
  rw [← hcount, tickTrail]
  split
  · exact length_stepsTrail_le _ _
  · exact Nat.zero_le _

/-- A tick of a busy machine is a slice of the length that its budget gives. -/
theorem tick_of_busy (h : m.state.isBusy = true) :
    m.tick = steps m.tickLength m.begun ∧ tickTrail m = stepsTrail m.tickLength m.begun :=
  ⟨by rw [tick, if_pos h]; rfl, by rw [tickTrail, if_pos h]⟩

/-- The tick of a busy machine: it is stopped at once, or fails at its first instruction, or takes it
and goes on. -/
theorem tick_cases (h : m.IgnoresClock) (hbusy : m.state.isBusy = true) :
    (m.killFlag = true ∧ tickTrail m = []
      ∧ ∃ m', m.tick = .ok m' ∧ m'.core = m.core.stopped ∧ m'.natives = m.natives)
    ∨ (∃ e, m.tick = .error e ∧ tickTrail m = []
      ∧ m.core.next? = some (.error ⟨e.machine.core⟩))
    ∨ ∃ next count, m.core.next? = some (.ok next.core) ∧ next.natives = m.natives
      ∧ m.tick = steps count next ∧ tickTrail m = next :: stepsTrail count next := by
  -- a tick has at least one step
  have hpositive : m.tickLength ≠ 0 := by
    unfold tickLength
    split
    · decide
    · omega
  obtain ⟨count, hcount⟩ := Nat.exists_eq_succ_of_ne_zero hpositive
  rw [(tick_of_busy hbusy).1, (tick_of_busy hbusy).2, hcount]
  set start : Machine := m.begun with hstart
  have hclock : start.IgnoresClock := h.of_natives rfl
  -- what the first step does is the next instruction of the sequence
  have hnext (halive : m.killFlag = false) : m.core.next? = some (repaced 0 0 start.step) := by
    have hsame : m.core.next? = start.core.next? := by
      simp only [next?, show start.core.resumed = m.core.resumed from rfl,
        show m.core.killFlag = false from halive, show start.core.killFlag = false from halive,
        show m.core.state.isBusy = true from hbusy, show start.core.state.isBusy = true from rfl]
    rw [hsame, core_next?_of_running hclock rfl halive]
  cases hflag : m.killFlag with
  -- killed before the first step
  | true =>
      obtain ⟨hsteps, htrail⟩ := steps_of_flagged (m := start) count rfl hflag
      exact .inl ⟨rfl, htrail, _, hsteps, (core_stopped hbusy hflag).symm, rfl⟩
  | false =>
      cases hstep : start.step with
      -- the first step fails
      | error e =>
          obtain ⟨hsteps, htrail⟩ := steps_of_error (m := start) count rfl hflag hstep
          exact .inr (.inl ⟨e, hsteps, htrail, by rw [hnext hflag, hstep]; rfl⟩)
      -- it succeeds, and the rest of the tick is a slice
      | ok next =>
          obtain ⟨hsteps, htrail⟩ := steps_of_ok (m := start) count rfl hflag hstep
          have hnatives : next.natives = start.natives := natives_step hclock hstep
          exact .inr (.inr ⟨next, count, by rw [hnext hflag, hstep]; rfl, hnatives, hsteps, htrail⟩)

/-- A machine that is busy has not been stopped. -/
theorem core_eq_of_busy {place : Machine} (hbusy : now.state.isBusy = true)
    (h : now.core = place ∨ now.core = place.stopped) : now.core = place := by
  rcases h with h | h
  · exact h
  · rw [stopped] at h
    split at h
    · have hstate : now.state = .killed := congrArg Machine.state h
      rw [hstate] at hbusy
      cases hbusy
    · exact h

/-- A tick goes on in the sequence of instructions from where the machine is. -/
theorem tick_follow {k : Nat} (h : now.IgnoresClock) (hnow : m.Reached k now) :
    (∀ i x, (tickTrail now)[i]? = some x → after (k + (i + 1)) m.core = some x.core)
    ∧ (∀ now', now.tick = .ok now' →
      m.Reached (k + (tickTrail now).length) now' ∧ now'.natives = now.natives)
    ∧ (∀ e, now.tick = .error e → m.FailsAt (k + (tickTrail now).length) e) := by
  cases hbusy : now.state.isBusy with
  | false =>
      rw [tick, tickTrail, hbusy]
      refine ⟨by simp, ?_, by simp⟩
      intro now' hnow'
      obtain rfl := Except.ok.inj hnow'
      exact ⟨hnow, rfl⟩
  | true =>
      obtain ⟨place, hplace, hcore⟩ := hnow
      -- a busy machine has not stopped, so its core is the place that was reached
      obtain rfl := core_eq_of_busy hbusy hcore
      rcases tick_cases h hbusy with ⟨-, htrail, final, htick, hfinal, hnatives⟩
          | ⟨e, htick, htrail, hnext⟩ | ⟨next, count, hnext, hnatives, htick, htrail⟩
      · rw [htick, htrail]
        refine ⟨by simp, ?_, by simp⟩
        intro now' hnow'
        obtain rfl := Except.ok.inj hnow'
        exact ⟨⟨now.core, hplace, .inr hfinal⟩, hnatives⟩
      · rw [htick, htrail]
        refine ⟨by simp, by simp, ?_⟩
        intro e' he'
        obtain rfl := Except.error.inj he'
        exact ⟨now.core, hplace, hnext⟩
      · obtain ⟨hpassed, hreached, hfails⟩ := steps_follow count (h.of_natives hnatives)
        -- the first step of the tick leads to the next place, the rest of it is a slice
        have hafter (j : Nat) : after (k + (j + 1)) m.core = after j next.core := by
          rw [after_add, hplace]
          simp only [Option.bind_some, after, hnext]
        rw [htick, htrail, List.length_cons]
        refine ⟨fun i x hget => ?_, fun now' hnow' => ?_, fun e he => ?_⟩
        · rw [hafter]
          cases i with
          | zero =>
              obtain rfl : next = x := by simpa using hget
              rfl
          | succ i => exact hpassed i x (by simpa using hget)
        · obtain ⟨⟨place, hat, hend⟩, hsame⟩ := hreached now' hnow'
          exact ⟨⟨place, by rw [hafter]; exact hat, hend⟩, hsame.trans hnatives⟩
        · obtain ⟨place, hat, hend⟩ := hfails e he
          exact ⟨place, by rw [hafter]; exact hat, hend⟩

/-! ## Runs -/

section

variable {budgets : Nat → Int} {n k : Nat}

theorem ticked_succ_of_ok (h : m.ticked budgets n = .ok now) :
    m.ticked budgets (n + 1) = tick (now.withBudget (budgets n))
      ∧ m.trail budgets (n + 1) = m.trail budgets n ++ tickTrail (now.withBudget (budgets n)) := by
  simp [ticked, trail, h, bind, Except.bind]

theorem ticked_succ_of_error {e : Unaddressable} (h : m.ticked budgets n = .error e) :
    m.ticked budgets (n + 1) = .error e ∧ m.trail budgets (n + 1) = m.trail budgets n := by
  simp [ticked, trail, h, bind, Except.bind]

/-- A run takes the instructions of the sequence in order. -/
theorem ticked_follow (h : m.IgnoresClock) (budgets : Nat → Int) (n : Nat) :
    (∀ i x, (m.trail budgets n)[i]? = some x → after (i + 1) m.core = some x.core)
    ∧ (∀ now, m.ticked budgets n = .ok now →
      m.Reached (m.trail budgets n).length now ∧ now.natives = m.natives)
    ∧ (∀ e, m.ticked budgets n = .error e → m.FailsAt (m.trail budgets n).length e) := by
  induction n with
  | zero =>
      refine ⟨by simp [trail], ?_, by simp [ticked]⟩
      intro now hnow
      obtain rfl := Except.ok.inj hnow
      exact ⟨⟨_, rfl, .inl rfl⟩, rfl⟩
  | succ n ih =>
      obtain ⟨hpassed, hreached, hfails⟩ := ih
      cases hticked : m.ticked budgets n with
      | error e =>
          obtain ⟨hsame, htrail⟩ := ticked_succ_of_error hticked
          rw [hsame, htrail]
          refine ⟨hpassed, by simp, fun e' he' => ?_⟩
          obtain rfl := Except.error.inj he'
          exact hfails e hticked
      | ok now =>
          obtain ⟨hat, hnatives⟩ := hreached now hticked
          obtain ⟨htick, htrail⟩ := ticked_succ_of_ok hticked
          -- the budget is no part of the core, so the machine is at the same place with another one
          have hat' : m.Reached (m.trail budgets n).length (now.withBudget (budgets n)) := hat
          have hclock : (now.withBudget (budgets n)).IgnoresClock := h.of_natives hnatives
          obtain ⟨hnew, hok, herror⟩ := tick_follow hclock hat'
          rw [htick, htrail, List.length_append]
          refine ⟨fun i x hget => ?_, fun now' hnow' => ?_, herror⟩
          · rcases Nat.lt_or_ge i (m.trail budgets n).length with hi | hi
            · rw [List.getElem?_append_left hi] at hget
              exact hpassed i x hget
            · rw [List.getElem?_append_right hi] at hget
              have hplace := hnew _ x hget
              rwa [show (m.trail budgets n).length + (i - (m.trail budgets n).length + 1) = i + 1 by
                omega] at hplace
          · obtain ⟨hend, hsame⟩ := hok now' hnow'
            exact ⟨hend, hsame.trans hnatives⟩

/-- Every tick of a run that has not come to its end takes an instruction. -/
theorem le_length_trail (budgets : Nat → Int) (h : m.IgnoresClock) {place : Machine}
    (hplace : after k m.core = some place) (n : Nat) : min n k ≤ (m.trail budgets n).length := by
  induction n with
  | zero => simp
  | succ n ih =>
      obtain ⟨-, hreached, hfails⟩ := ticked_follow h budgets n
      -- a tick either finds the trail long enough or makes it longer
      rcases Nat.lt_or_ge (m.trail budgets n).length k with hlt | hge
      · -- an instruction follows the ones that were taken
        have hnext {here : Machine} (hhere : after (m.trail budgets n).length m.core = some here) :
            ∃ next, here.next? = some (.ok next) := by
          have hsucc := after_succ hhere
          obtain ⟨more, hk⟩ := Nat.exists_eq_add_of_lt hlt
          rw [hk, Nat.add_right_comm, after_add, hsucc] at hplace
          cases hfound : here.next? with
          | none => simp [hfound] at hplace
          | some result =>
              cases result with
              | error e => simp [hfound] at hplace
              | ok next => exact ⟨next, rfl⟩
        -- the machine stands where the trail ends: it cannot have failed there
        cases hticked : m.ticked budgets n with
        | error e =>
            obtain ⟨here, hhere, hfail⟩ := hfails e hticked
            obtain ⟨next, hok⟩ := hnext hhere
            rw [hfail] at hok
            cases hok
        | ok now =>
            obtain ⟨⟨here, hhere, hcore⟩, hnatives⟩ := hreached now hticked
            obtain ⟨next, hok⟩ := hnext hhere
            -- a machine with an instruction to take is busy and not killed
            obtain ⟨hbusy, halive⟩ : here.state.isBusy = true ∧ here.killFlag = false := by
              rw [next?] at hok
              split at hok
              · next hgoes => simpa using hgoes
              · cases hok
            -- so it did not stop there, and has only its clock beside what the trail reached
            have hsame : now.core = here := by
              rcases hcore with hcore | hcore
              · exact hcore
              · simpa [stopped, halive] using hcore
            have hclock : (now.withBudget (budgets n)).IgnoresClock := h.of_natives hnatives
            have hbusy' : (now.withBudget (budgets n)).state.isBusy = true := by
              rw [← hsame] at hbusy
              exact hbusy
            -- the tick takes at least that instruction
            have hsome : 0 < (tickTrail (now.withBudget (budgets n))).length := by
              rcases tick_cases hclock hbusy' with ⟨hflag, -⟩ | ⟨e, -, -, hfail⟩ | ⟨_, _, -, -, -, htrail⟩
              · rw [← hsame] at halive
                exact absurd (halive.symm.trans hflag) (by decide)
              · rw [show (now.withBudget (budgets n)).core = here from hsame, hok] at hfail
                cases hfail
              · rw [htrail]
                simp
            rw [(ticked_succ_of_ok hticked).2, List.length_append]
            omega
      · have hgrows : (m.trail budgets n).length ≤ (m.trail budgets (n + 1)).length := by
          simp [trail]
        omega

/-- No run takes more instructions than there are. -/
theorem length_trail_le (budgets : Nat → Int) (h : m.IgnoresClock)
    (hend : after (k + 1) m.core = none) (n : Nat) : (m.trail budgets n).length ≤ k := by
  by_contra hlong
  have hk : k < (m.trail budgets n).length := by omega
  have hpassed := (ticked_follow h budgets n).1 k _ (List.getElem?_eq_getElem hk)
  rw [hend] at hpassed
  cases hpassed

/-- A run that is ticked often enough stands behind the last instruction. -/
theorem length_trail_eq (budgets : Nat → Int) (h : m.IgnoresClock) {place : Machine}
    (hplace : after k m.core = some place) (hend : ∀ next, place.next? ≠ some (.ok next)) :
    (m.trail budgets k).length = k := by
  have hnone : after (k + 1) m.core = none := by
    rw [after_succ hplace]
    split
    · next next hnext => exact absurd hnext (hend next)
    · rfl
  have hmost := length_trail_le budgets h hnone k
  have hleast := le_length_trail budgets h hplace k
  omega

/-! ## What a host can see -/

/-- In a run with some budgets, this is what the `k`-th instruction leaves, counted from zero. -/
def Shows (budgets : Nat → Int) (m : Machine) (k : Nat) (view : Machine) : Prop :=
  ∃ n now, (m.trail budgets n)[k]? = some now ∧ now.core = view

/-- A run with some budgets comes to this end. -/
def EndsAs (budgets : Nat → Int) (m view : Machine) : Prop :=
  ∃ n final, m.ticked budgets n = .ok final ∧ final.state.isBusy = false ∧ final.core = view

/-- A run with some budgets comes to an instruction that has no answer. -/
def FailsAs (budgets : Nat → Int) (m view : Machine) : Prop :=
  ∃ n e, m.ticked budgets n = .error e ∧ e.machine.core = view

/-- The views of a run are the cores behind its steps, whatever the budgets. -/
theorem shows_iff (h : m.IgnoresClock) (view : Machine) :
    m.Shows budgets k view ↔ after (k + 1) m.core = some view := by
  constructor
  · rintro ⟨n, now, hget, rfl⟩
    exact (ticked_follow h budgets n).1 k now hget
  · intro hafter
    have hlong := le_length_trail budgets h hafter (k + 1)
    have hk : k < (m.trail budgets (k + 1)).length := by omega
    have hpassed := (ticked_follow h budgets (k + 1)).1 k _ (List.getElem?_eq_getElem hk)
    refine ⟨k + 1, _, List.getElem?_eq_getElem hk, ?_⟩
    exact Option.some.inj (hpassed.symm.trans hafter)

/-- So is the view that it ends with. -/
theorem endsAs_iff (h : m.IgnoresClock) (view : Machine) : m.EndsAs budgets view ↔
    ∃ k place, after k m.core = some place ∧ place.next? = none ∧ place.stopped = view := by
  constructor
  · rintro ⟨n, final, hticked, hidle, rfl⟩
    obtain ⟨⟨place, hplace, hcore⟩, -⟩ := (ticked_follow h budgets n).2.1 final hticked
    refine ⟨_, place, hplace, ?_⟩
    rcases hcore with rfl | hcore
    · have hcoreIdle : final.core.state.isBusy = false := hidle
      simp [next?, stopped, hcoreIdle]
    · rw [next?]
      refine ⟨?_, hcore.symm⟩
      split
      · next hgoes =>
          -- a machine that goes on is not stopped, so the end would be busy
          obtain ⟨hbusy, halive⟩ : place.state.isBusy = true ∧ place.killFlag = false := by
            simpa using hgoes
          have hsame : final.core = place := by simpa [stopped, halive] using hcore
          rw [← hsame, show final.core.state = final.state from rfl, hidle] at hbusy
          cases hbusy
      · rfl
  · rintro ⟨k, place, hplace, hnone, rfl⟩
    have hend (next : Machine) : place.next? ≠ some (.ok next) := by simp [hnone]
    have hlength := length_trail_eq budgets h hplace hend
    obtain ⟨-, hreached, hfails⟩ := ticked_follow h budgets k
    rw [hlength] at hreached hfails
    cases hticked : m.ticked budgets k with
    | error e =>
        obtain ⟨place', hplace', hfail⟩ := hfails e hticked
        obtain rfl := Option.some.inj (hplace.symm.trans hplace')
        rw [hnone] at hfail
        cases hfail
    | ok now =>
        obtain ⟨⟨place', hplace', hcore⟩, hnatives⟩ := hreached now hticked
        obtain rfl := Option.some.inj (hplace.symm.trans hplace')
        cases hbusy : now.state.isBusy with
        | false =>
            refine ⟨k, now, hticked, hbusy, ?_⟩
            rcases hcore with hcore | hcore
            · have hidle : place.state.isBusy = false := by
                rw [← hcore]
                exact hbusy
              rw [hcore, stopped, hidle]
              rfl
            · exact hcore
        | true =>
            -- it is to be stopped, which the next tick finds out
            obtain rfl := core_eq_of_busy hbusy hcore
            have hclock : (now.withBudget (budgets k)).IgnoresClock := h.of_natives hnatives
            rcases tick_cases hclock hbusy with ⟨-, -, final, htick, hfinal, -⟩ | ⟨e, -, -, hfail⟩
                | ⟨next, _, hnext, -⟩
            · refine ⟨k + 1, final, (ticked_succ_of_ok hticked).1.trans htick, ?_, hfinal⟩
              have hflag : now.killFlag = true := by
                by_contra halive
                rw [next?, if_pos (by simpa [core, hbusy] using halive)] at hnone
                cases hnone
              have hkilled : (now.withBudget (budgets k)).core.stopped.state = .killed := by
                rw [core_stopped (m := now.withBudget (budgets k)) hbusy hflag]
                rfl
              rw [show final.state = final.core.state from rfl, hfinal, hkilled]
              rfl
            · exact absurd (hnone.symm.trans hfail) (by simp)
            · exact absurd (hnone.symm.trans hnext) (by simp)

/-- And so is the view in which a step fails. -/
theorem failsAs_iff (h : m.IgnoresClock) (view : Machine) : m.FailsAs budgets view ↔
    ∃ k place, after k m.core = some place ∧ place.next? = some (.error ⟨view⟩) := by
  constructor
  · rintro ⟨n, e, hticked, rfl⟩
    obtain ⟨place, hplace, hfail⟩ := (ticked_follow h budgets n).2.2 e hticked
    exact ⟨_, place, hplace, hfail⟩
  · rintro ⟨k, place, hplace, hfail⟩
    have hend (next : Machine) : place.next? ≠ some (.ok next) := by simp [hfail]
    -- until the failing place every tick takes at least one step, so `k` ticks reach it
    have hlength := length_trail_eq budgets h hplace hend
    obtain ⟨-, hreached, hfails⟩ := ticked_follow h budgets k
    rw [hlength] at hreached hfails
    cases hticked : m.ticked budgets k with
    | error e =>
        obtain ⟨place', hplace', hfail'⟩ := hfails e hticked
        obtain rfl := Option.some.inj (hplace.symm.trans hplace')
        refine ⟨k, e, hticked, ?_⟩
        rw [hfail] at hfail'
        injection hfail' with hsame
        injection hsame with hsame
        injection hsame with hsame
        exact hsame.symm
    | ok now =>
        obtain ⟨⟨place', hplace', hcore⟩, hnatives⟩ := hreached now hticked
        obtain rfl := Option.some.inj (hplace.symm.trans hplace')
        obtain ⟨hbusy, halive⟩ : place.state.isBusy = true ∧ place.killFlag = false := by
          rw [next?] at hfail
          split at hfail
          · next hgoes => simpa using hgoes
          · cases hfail
        -- the machine is busy there, so it has not stopped
        have hsame : now.core = place := by
          rcases hcore with hcore | hcore
          · exact hcore
          · simpa [stopped, halive] using hcore
        subst hsame
        have hclock : (now.withBudget (budgets k)).IgnoresClock := h.of_natives hnatives
        -- the next tick takes the failing step, whatever its budget
        rcases tick_cases hclock hbusy with ⟨hflag, -⟩ | ⟨e, htick, -, hfail'⟩ | ⟨next, _, hnext, -⟩
        · exact absurd (halive.symm.trans hflag) (by decide)
        · refine ⟨k + 1, e, (ticked_succ_of_ok hticked).1.trans htick, ?_⟩
          have hview := hfail.symm.trans hfail'
          injection hview with hview
          injection hview with hview
          injection hview with hview
          exact hview.symm
        · exact absurd (hfail.symm.trans hnext) (by simp)

/-! ## Natives that are not done -/

/-- The machine is about to call a native with some arguments, and the native will not be done: it
answers nothing, and it does not stop the machine either. -/
structure AwaitsNative (m : Machine) (id : Id) (native : Native) (arguments : List Value) : Prop where
  /-- A call of the native stands at the address of the innermost function. -/
  instruction : ∃ f rest i, m.frames = f :: rest ∧ f.function.code.length < 2 ^ 63
    ∧ Instr.decodeAt f.function.code f.ip = .ok i ∧ i.op = .call ∧ i.word 0 = id
  /-- No function of the program has the id. -/
  foreign : m.program.functions.get? id = none
  /-- A native has it. -/
  registered : m.natives.get? id = some native
  /-- Its arguments lie on the stack. -/
  onTop : ∃ below, m.stack.popMany? native.arity = some (arguments, below)
  /-- It is not done. -/
  pending : (Exec.replyTo native id arguments m).answer = .pending
  /-- And does not kill the machine. -/
  unkilled : (Exec.replyTo native id arguments m).kill? = none

/-- A native that is not done leaves the machine where it was, with the arguments on the stack. Only
its calls are counted and what it printed is noted. -/
theorem AwaitsNative.step {id : Id} {native : Native} {arguments : List Value}
    (h : m.AwaitsNative id native arguments) :
    ∃ nativeCalls printed, m.step = .ok { m with nativeCalls, printed, state := .waiting } := by
  obtain ⟨f, rest, i, hframes, hcode, hdecode, hop, hword⟩ := h.instruction
  obtain ⟨below, htop⟩ := h.onTop
  obtain ⟨offset, hip⟩ := Instr.nonneg_of_decodeAt hdecode
  obtain ⟨tail, hhead⟩ := Instr.decodeAt_eq_ok_iff.1 (hip ▸ hdecode)
  have hstands : m.Stands f.function.code offset := ⟨f, rest, hframes, hip, rfl⟩
  have hact : Exec.act offset i = Exec.call offset id := by
    rw [← hword]
    simp only [Exec.act, hop]
  rw [step_of_decode hstands hcode hhead, hact, Exec.run_call, goto_eq hframes]
  -- neither of these looks at the address that the fetch has moved
  have hreply (frames : List Frame) : Exec.replyTo native id arguments { m with frames }
      = Exec.replyTo native id arguments m := rfl
  simp only [h.foreign, h.registered, htop, hreply, h.pending, hear, h.unkilled, mapFrame]
  refine ⟨m.nativeCalls.set id ((m.nativeCalls.get? id).getD 0 + 1),
    (Exec.replyTo native id arguments m).printed.reverse ++ m.printed, ?_⟩
  rw [← hip, hframes]
  rfl

/-! ## Two ways to slice a run -/

/-- The sequence of instructions ends in one place only. -/
theorem end_unique {j : Nat} {place place' : Machine} (hplace : after j m = some place)
    (hplace' : after k m = some place') (hend : place.next? = none) (hend' : place'.next? = none) :
    place = place' := by
  have hstuck {i i' : Nat} {x x' : Machine} (hx : after i m = some x) (hx' : after i' m = some x')
      (hnone : x.next? = none) : ¬ i < i' := by
    intro hlt
    obtain ⟨more, rfl⟩ := Nat.exists_eq_add_of_lt hlt
    rw [Nat.add_right_comm, after_add, after_succ hx, hnone] at hx'
    cases hx'
  have hle := hstuck hplace hplace' hend
  have hge := hstuck hplace' hplace hend'
  obtain rfl : j = k := by omega
  exact Option.some.inj (hplace.symm.trans hplace')

end

/-- How a run is sliced into ticks does not show. With any budgets the same machine stands behind
each instruction, up to the count of ticks and the budget itself; both runs come to the same end, or
both to the same instruction without an answer, or neither ends. A tick takes no more instructions
than its budget, and a native that is not done changes nothing but the state. Natives answer and may
kill the machine (`Reply`); they do not call it. -/
theorem slicing_unobservable (m : Machine) (h : m.IgnoresClock) (budgets budgets' : Nat → Int) :
    (∀ k view, m.Shows budgets k view ↔ m.Shows budgets' k view)
    ∧ (∀ k view view', m.Shows budgets k view → m.Shows budgets' k view' → view = view')
    ∧ (∀ view, m.EndsAs budgets view ↔ m.EndsAs budgets' view)
    ∧ (∀ view view', m.EndsAs budgets view → m.EndsAs budgets' view' → view = view')
    ∧ (∀ view, m.FailsAs budgets view ↔ m.FailsAs budgets' view)
    ∧ (∀ now final, now.state.isBusy = true → now.tick = .ok final →
      Walks now.begun (tickTrail now) final)
    ∧ (∀ now, (tickTrail now).length ≤ if now.budget ≤ 0 then 256 else now.budget.toNat)
    ∧ (∀ now id native arguments, AwaitsNative now id native arguments →
      ∃ nativeCalls printed, now.step = .ok { now with nativeCalls, printed, state := .waiting }) := by
  refine ⟨?_, ?_, ?_, ?_, ?_, ?_, ?_, fun now id native arguments hawaits => hawaits.step⟩
  · intro k view
    rw [shows_iff h, shows_iff h]
  · intro k view view' hview hview'
    rw [shows_iff h] at hview hview'
    exact Option.some.inj (hview.symm.trans hview')
  · intro view
    rw [endsAs_iff h, endsAs_iff h]
  · intro view view' hview hview'
    obtain ⟨j, place, hplace, hnone, rfl⟩ := (endsAs_iff h view).1 hview
    obtain ⟨k, place', hplace', hnone', rfl⟩ := (endsAs_iff h view').1 hview'
    rw [end_unique hplace hplace' hnone hnone']
  · intro view
    rw [failsAs_iff h, failsAs_iff h]
  · intro now final hbusy htick
    obtain ⟨hsteps, htrail⟩ := tick_of_busy hbusy
    rw [htrail]
    exact walks_of_steps (hsteps.symm.trans htick)
  · intro now
    exact length_tickTrail_le now

/-- A native that is done when it is called for the third time. -/
def thirdCall : Native where
  arity := 1
  reply call :=
    if call.count < 3 then { answer := .pending, printed := ["not yet"] }
    else { answer := .done (.ofInt call.count) }

/-- A machine that calls the native from its first instruction on and returns what it answers. -/
def patient : Machine :=
  let function : FunctionBody :=
    { code := Instr.encodeAll [⟨.call, [7], []⟩, ⟨.ret, [], []⟩], paramCount := 0, returnType := .int }
  { program := { functions := [(1, function)] }
    natives := [(7, thirdCall)]
    globals := []
    frames := [{ id := 1, function }]
    stack := OperandStack.push (.ofInt 5) []
    state := .running }

theorem patient_slicing :
    patient.IgnoresClock
    ∧ patient.AwaitsNative 7 thirdCall [.ofInt 5]
    ∧ ∃ view, patient.EndsAs (fun _ => 1) view ∧ patient.EndsAs (fun n => 300 - n) view
      ∧ view.state = .finished ∧ view.result = .ofInt 3 := by
  have hclock : patient.IgnoresClock := by
    intro id native hnative
    obtain rfl : native = thirdCall := by
      by_cases hid : (7 : Id) = id <;> simp [patient, Table.get?, hid] at hnative
      exact hnative.symm
    exact fun _ _ => rfl
  have hawaits : patient.AwaitsNative 7 thirdCall [.ofInt 5] := by
    refine ⟨⟨_, [], ⟨.call, [7], []⟩, rfl, by decide, by decide, rfl, rfl⟩, rfl, rfl, ⟨[], by decide⟩,
      rfl, rfl⟩
  have hends : ∃ view, patient.EndsAs (fun _ => 1) view ∧ view.state = .finished
      ∧ view.result = .ofInt 3 := by
    exact ⟨_, ⟨4, _, rfl, rfl, rfl⟩, rfl, rfl⟩
  obtain ⟨view, hview, hstate, hresult⟩ := hends
  have hslicing := slicing_unobservable patient hclock (fun _ => 1) (fun n => 300 - n)
  exact ⟨hclock, hawaits, view, hview, (hslicing.2.2.1 view).1 hview, hstate, hresult⟩

end Machine

end TickScript
