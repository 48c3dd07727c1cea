import TickScript.Proofs.Machine.Act
import TickScript.Proofs.Value

/-!
# What an instruction can do

An instruction is read first and then carried out (`Exec.instruction_eq`). Reading moves the address
of the innermost call and may kill the machine, no more. Most instructions are ordinary: they leave
the calls alone and change only operands, compare values, objects and the values of variables, and if
they end the machine then with a code of their own. Jumps, calls, returns and kills are the rest.

`Machine.Outcome` lists all that an instruction which was read can lead to, and `Machine.step_cases`
all that a step can. What every instruction keeps is proved by going through that list once.

The list is used in the opposite way to the equations of `Proofs.Machine.Instruction`: there the
instruction is known and the result is computed, here a step is given and one asks what it may have
been. `Ordinary` and `Reads` are closed under bind, so the two lemmas about whole instructions are
assembled from those about their parts, and only calls, returns, jumps and kills are looked at one
by one.
-/

namespace TickScript

/-- The codes with which a machine stops itself over an instruction that it has read. -/
def KillCode.acting : List KillCode :=
  [divisionByZero, stackUnderflow, undefinedVariable, undefinedFunction, nativeFailure]

namespace Machine

/-! ## What an instruction keeps -/

/-- What no instruction changes: the program, the natives, and which variables there are outside all
calls and of which types. -/
structure Kept (m m' : Machine) : Prop where
  /-- No instruction changes the program. -/
  program : m'.program = m.program
  /-- No instruction registers natives. -/
  natives : m'.natives = m.natives
  /-- Globals of known types keep their types. -/
  globals : m.globals.Known → m'.globals.types = m.globals.types

theorem Kept.of_eq {m m' : Machine} (hprogram : m'.program = m.program)
    (hnatives : m'.natives = m.natives) (hglobals : m'.globals = m.globals) : m.Kept m' :=
  ⟨hprogram, hnatives, fun _ => by rw [hglobals]⟩

/-- What is kept over two stretches is kept over both. -/
theorem Kept.trans {m m' m'' : Machine} (h : m.Kept m') (h' : m'.Kept m'') : m.Kept m'' := by
  refine ⟨h'.program.trans h.program, h'.natives.trans h.natives, fun hknown => ?_⟩
  have htypes := h.globals hknown
  exact (h'.globals (hknown.of_types htypes)).trans htypes

/-- A kill keeps everything but the state. -/
theorem Kept.kill {m m' : Machine} (h : m.Kept m') (code : KillCode) : m.Kept (m'.kill code) :=
  h.trans (.of_eq rfl rfl rfl)

/-- Changing the innermost call changes nothing but the calls. -/
theorem exists_mapFrame_eq (m : Machine) (change : Frame → Frame) :
    ∃ frames, m.mapFrame change = { m with frames } := by
  simp only [mapFrame]
  split
  · exact ⟨m.frames, rfl⟩
  · exact ⟨_, rfl⟩

theorem kept_mapFrame (m : Machine) (change : Frame → Frame) : m.Kept (m.mapFrame change) := by
  obtain ⟨frames, heq⟩ := exists_mapFrame_eq m change
  rw [heq]
  exact .of_eq rfl rfl rfl

theorem kept_hear (m : Machine) (id : Id) (reply : Reply) : m.Kept (m.hear id reply) := by
  simp only [hear]
  split
  · exact .of_eq rfl rfl rfl
  · exact .of_eq rfl rfl rfl

/-- A reply kills the machine only if it says so. -/
theorem killFlag_hear (m : Machine) (id : Id) {reply : Reply} (h : reply.kill? = none) :
    (m.hear id reply).killFlag = m.killFlag := by
  simp only [hear, h]

/-! ## Ordinary changes -/

/-- What an instruction changes that neither jumps, calls nor returns: in the calls only the local
variables of the innermost one. -/
structure OrdinaryChange (m m' : Machine) : Prop extends Kept m m' where
  /-- Of the calls only the variables of the innermost may change. -/
  frames : ∃ locals, m'.frames = (m.mapFrame fun f => { f with locals }).frames
  /-- The machine goes on as before. -/
  state : m'.state = m.state
  /-- The machine is not killed. -/
  killFlag : m'.killFlag = m.killFlag
  /-- The code of a kill does not change. -/
  killCode : m'.killCode = m.killCode

theorem frames_mapFrame (m : Machine) (change : Frame → Frame) :
    (m.mapFrame change).frames = match m.frames with
      | [] => []
      | f :: rest => change f :: rest := by
  simp only [mapFrame]
  cases hframes : m.frames with
  | nil => exact hframes
  | cons f rest => rfl

theorem OrdinaryChange.of_eq {m m' : Machine} (hprogram : m'.program = m.program)
    (hnatives : m'.natives = m.natives) (hframes : m'.frames = m.frames)
    (hglobals : m'.globals = m.globals) (hstate : m'.state = m.state)
    (hflag : m'.killFlag = m.killFlag) (hcode : m'.killCode = m.killCode) :
    m.OrdinaryChange m' := by
  refine ⟨.of_eq hprogram hnatives hglobals, ⟨m.locals, ?_⟩, hstate, hflag, hcode⟩
  rw [hframes, frames_mapFrame]
  cases hcalls : m.frames with
  | nil => rfl
  | cons f rest => simp [locals, hcalls]

theorem OrdinaryChange.refl (m : Machine) : m.OrdinaryChange m := .of_eq rfl rfl rfl rfl rfl rfl rfl

/-- Ordinary changes add up to one. -/
theorem OrdinaryChange.trans {m m' m'' : Machine} (h : m.OrdinaryChange m')
    (h' : m'.OrdinaryChange m'') : m.OrdinaryChange m'' := by
  refine ⟨h.toKept.trans h'.toKept, ?_, h'.state.trans h.state, h'.killFlag.trans h.killFlag,
    h'.killCode.trans h.killCode⟩
  obtain ⟨locals, hframes⟩ := h.frames
  obtain ⟨locals', hframes'⟩ := h'.frames
  refine ⟨locals', ?_⟩
  rw [frames_mapFrame] at hframes hframes' ⊢
  rw [hframes', hframes]
  cases m.frames <;> rfl

/-- Giving the innermost call other local variables is an ordinary change. -/
theorem ordinaryChange_mapFrame (m : Machine) (change : Table Id Value → Table Id Value) :
    m.OrdinaryChange (m.mapFrame fun f => { f with locals := change f.locals }) := by
  cases hframes : m.frames with
  | nil =>
      have hsame : m.mapFrame (fun f => { f with locals := change f.locals }) = m := by
        simp [mapFrame, hframes]
      rw [hsame]
      exact .refl m
  | cons f rest =>
      have hmoved : m.mapFrame (fun f => { f with locals := change f.locals })
          = { m with frames := { f with locals := change f.locals } :: rest } := by
        simp [mapFrame, hframes]
      rw [hmoved]
      exact ⟨.of_eq rfl rfl rfl, ⟨change f.locals, by simp [mapFrame, hframes]⟩, rfl, rfl, rfl⟩

/-- A variable that is written in its place keeps its type, if that is a known one. -/
theorem ordinaryChange_assign {m : Machine} {id : Id} {old v : Value} (hold : m.lookup? id = some old)
    (htype : old.type.isKnown = true → v.type = old.type) : m.OrdinaryChange (m.assign id v) := by
  rw [assign]
  split
  · exact ordinaryChange_mapFrame m fun locals => locals.set id v
  · next hlocal =>
      have hnone : m.locals.get? id = none :=
        (Table.has_eq_false_iff _ _).1 (Bool.not_eq_true _ ▸ hlocal)
      have hget : m.globals.get? id = some old := by
        rw [lookup?, hnone] at hold
        exact hold
      have hkept : m.Kept { m with globals := m.globals.set id v } :=
        ⟨rfl, rfl, fun hknown => Table.types_set hget (htype (hknown id old hget))⟩
      refine ⟨hkept, ⟨m.locals, ?_⟩, rfl, rfl, rfl⟩
      rw [frames_mapFrame]
      cases hcalls : m.frames with
      | nil => rfl
      | cons f rest => simp [locals, hcalls]

end Machine

namespace Exec

variable {α β : Type}

/-- What an ordinary part of an instruction has led to: an ordinary change, behind which the machine
may be killed. -/
def Leaves (m : Machine) : EStateM.Result Stop Machine α → Prop
  | .ok _ m' => m.OrdinaryChange m'
  | .error stop m' => stop = .killed
    ∧ ∃ x code, m.OrdinaryChange x ∧ code ∈ KillCode.acting ∧ m' = x.kill code

/-- A part of an instruction that changes the machine in ordinary ways only. -/
def Ordinary (x : Exec α) : Prop := ∀ m : Machine, Leaves m (x m)

theorem ordinary_pure (a : α) : Ordinary (pure a : Exec α) := fun m => .refl m

/-- Ordinary actions are ordinary one behind the other. -/
theorem ordinary_bind {x : Exec α} {f : α → Exec β} (hx : Ordinary x) (hf : ∀ a, Ordinary (f a)) :
    Ordinary (x >>= f) := by
  intro m
  have hm := hx m
  rw [run_bind]
  cases hrun : x m with
  | error stop m' =>
      rw [hrun] at hm
      exact hm
  | ok a m' =>
      rw [hrun] at hm
      have hrest := hf a m'
      simp only
      cases hnext : f a m' with
      | ok b m'' =>
          rw [hnext] at hrest
          exact Machine.OrdinaryChange.trans hm hrest
      | error stop m'' =>
          rw [hnext] at hrest
          obtain ⟨hstop, x, code, hchange, hcode, hkill⟩ := hrest
          exact ⟨hstop, x, code, Machine.OrdinaryChange.trans hm hchange, hcode, hkill⟩

/-- A change of the machine is ordinary if it is so everywhere. -/
theorem ordinary_modify {f : Machine → Machine} (hf : ∀ m : Machine, m.OrdinaryChange (f m)) :
    Ordinary (modify f : Exec PUnit) := fun m => hf m

/-- An action may kill the machine, with a code that belongs to acting. -/
theorem leaves_kill {m x : Machine} {code : KillCode} (h : m.OrdinaryChange x)
    (hcode : code ∈ KillCode.acting) :
    Leaves m (.error .killed (x.kill code) : EStateM.Result Stop Machine α) :=
  ⟨rfl, x, code, h, hcode, rfl⟩

theorem ordinary_push (v : Value) : Ordinary (push v) :=
  ordinary_modify fun _ => .of_eq rfl rfl rfl rfl rfl rfl rfl

theorem ordinary_pop : Ordinary pop := by
  intro m
  rw [run_pop]
  split
  · exact leaves_kill (.refl m) (by decide)
  · exact .of_eq rfl rfl rfl rfl rfl rfl rfl

theorem ordinary_popCompare : Ordinary popCompare := by
  intro m
  rw [run_popCompare]
  split
  · exact leaves_kill (.refl m) (by decide)
  · exact .of_eq rfl rfl rfl rfl rfl rfl rfl

theorem ordinary_pushVariable (id : Id) : Ordinary (pushVariable id) := by
  intro m
  rw [run_pushVariable]
  split
  · exact .of_eq rfl rfl rfl rfl rfl rfl rfl
  · split
    · exact .of_eq rfl rfl rfl rfl rfl rfl rfl
    · split
      · exact leaves_kill (.refl m) (by decide)
      · exact .of_eq rfl rfl rfl rfl rfl rfl rfl

/-- A variable keeps its type, so an update must. -/
theorem ordinary_update (id : Id) {f : Value → Value}
    (hf : ∀ old, old.type.isKnown = true → (f old).type = old.type) : Ordinary (update id f) := by
  intro m
  rw [run_update]
  split
  · exact leaves_kill (.refl m) (by decide)
  · next old hold => exact Machine.ordinaryChange_assign hold (hf old)

theorem ordinary_arithmetic (op : BinaryOp) : Ordinary (arithmetic op) := by
  refine ordinary_bind ordinary_pop fun b => ordinary_bind ordinary_pop fun a => ?_
  split
  · exact fun m => leaves_kill (.refl m) (by decide)
  · exact ordinary_push _

theorem ordinary_instantiate : Ordinary instantiate := by
  intro m
  rw [run_instantiate]
  split
  · exact leaves_kill (.refl m) (by decide)
  · split
    · exact .of_eq rfl rfl rfl rfl rfl rfl rfl
    · exact .of_eq rfl rfl rfl rfl rfl rfl rfl

theorem ordinary_withObject (ask : Handle → Host → Except HostError Host)
    (attached : Handle → Handle → Handle) : Ordinary (withObject ask attached) := by
  intro m
  rw [run_withObject]
  split
  · exact leaves_kill (.refl m) (by decide)
  · split
    · exact .of_eq rfl rfl rfl rfl rfl rfl rfl
    · exact .of_eq rfl rfl rfl rfl rfl rfl rfl

end Exec

/-- Whether an operation leaves the calls alone: it neither jumps, calls, returns nor kills. -/
def Opcode.isOrdinary (op : Opcode) : Bool :=
  !(op.isJump || op == .call || op == .ret || op == .kill)

namespace Exec

/-- An operation that leaves the calls alone changes the machine in ordinary ways. -/
theorem ordinary_act (start : Int) (i : Instr) (hop : i.op.isOrdinary = true) :
    Ordinary (act start i) := by
  have hsame {f : Machine → Machine} (h : ∀ m, f m = { m with
      stack := (f m).stack, savedCompares := (f m).savedCompares,
      compareValue := (f m).compareValue, compareFlag := (f m).compareFlag }) :
      Ordinary (modify f : Exec PUnit) := by
    refine ordinary_modify fun m => ?_
    rw [h m]
    exact .of_eq rfl rfl rfl rfl rfl rfl rfl
  obtain ⟨op, operands, data⟩ := i
  cases op
  case jump | jumpBy | jumpIf | jumpIfBy | call | ret | kill => cases hop
  case pushVar => exact ordinary_pushVariable _
  case popVar =>
    exact ordinary_bind ordinary_pop fun v =>
      ordinary_update _ fun _ hknown => Value.type_convert hknown v
  case mod | div | mul | sub | add | and | or | xor | shiftLeft | shiftRight =>
    exact ordinary_arithmetic _
  case compare =>
    exact ordinary_bind ordinary_pop fun _ => ordinary_bind ordinary_pop fun _ =>
      hsame fun _ => rfl
  case combine => exact ordinary_bind ordinary_popCompare fun _ => hsame fun _ => rfl
  case restoreCompare => exact ordinary_bind ordinary_popCompare fun _ => hsame fun _ => rfl
  case allocate =>
    exact ordinary_modify fun m => Machine.ordinaryChange_mapFrame m fun locals => locals.set _ _
  case free =>
    exact ordinary_modify fun m => Machine.ordinaryChange_mapFrame m fun locals => locals.erase _
  case set => exact ordinary_update _ fun _ _ => rfl
  case pop => exact ordinary_bind ordinary_pop fun _ => ordinary_pure _
  case pushCompare => exact fun m => ordinary_push _ m
  case instantiate => exact ordinary_instantiate
  case delete | attach | detach =>
    simp only [act, execute]
    exact ordinary_withObject _ _
  case nop => exact ordinary_pure _
  all_goals exact hsame fun _ => rfl

/-! ## Reading -/

/-- What reading has led to: only the address of the innermost call has moved, and the machine may
be killed there. -/
def Moves (m : Machine) : EStateM.Result Stop Machine α → Prop
  | .ok _ m' => ∃ ip, m' = m.goto ip
  | .error stop m' => stop = .killed
    ∧ ∃ ip code, (code = .invalidOpcode ∨ code = .busFault) ∧ m' = (m.goto ip).kill code

/-- A part of an instruction that only reads. -/
def Reads (x : Exec α) : Prop := ∀ m : Machine, Moves m (x m)

theorem exists_goto_eq (m : Machine) : ∃ ip, m.goto ip = m := by
  cases hframes : m.frames with
  | nil => exact ⟨0, by simp [Machine.goto, Machine.mapFrame, hframes]⟩
  | cons f rest => exact ⟨f.ip, by rw [Machine.goto_eq hframes, ← hframes]⟩

theorem reads_pure (a : α) : Reads (pure a : Exec α) := by
  intro m
  obtain ⟨ip, hip⟩ := exists_goto_eq m
  exact ⟨ip, hip.symm⟩

/-- A fetch may kill the machine too, with the two codes of a failed one. -/
theorem reads_kill {code : KillCode} (h : code = .invalidOpcode ∨ code = .busFault) :
    Reads (kill code : Exec α) := by
  intro m
  obtain ⟨ip, hip⟩ := exists_goto_eq m
  exact ⟨rfl, ip, code, h, by rw [hip]⟩

/-- Fetches in a row move the instruction pointer only. -/
theorem reads_bind {x : Exec α} {f : α → Exec β} (hx : Reads x) (hf : ∀ a, Reads (f a)) :
    Reads (x >>= f) := by
  intro m
  have hm := hx m
  rw [run_bind]
  cases hrun : x m with
  | error stop m' =>
      rw [hrun] at hm
      exact hm
  | ok a m' =>
      rw [hrun] at hm
      obtain ⟨ip, rfl⟩ := hm
      have hrest := hf a (m.goto ip)
      simp only
      cases hnext : f a (m.goto ip) with
      | ok b m'' =>
          rw [hnext] at hrest
          obtain ⟨ip', rfl⟩ := hrest
          exact ⟨ip', Machine.goto_goto m ip ip'⟩
      | error stop m'' =>
          rw [hnext] at hrest
          obtain ⟨hstop, ip', code, hcode, rfl⟩ := hrest
          exact ⟨hstop, ip', code, hcode, by rw [Machine.goto_goto]⟩

theorem reads_fetchBytes (count : Nat) : Reads (fetchBytes count) := by
  intro m
  simp only [fetchBytes, run_bind, run_get]
  cases hframes : m.frames with
  | nil => exact reads_kill (.inr rfl) m
  | cons f rest =>
      simp only
      split
      · exact reads_kill (.inr rfl) m
      · split
        · exact reads_kill (.inr rfl) m
        · exact ⟨f.ip + count, (Machine.goto_eq hframes _).symm⟩

theorem reads_fetchOperands : (operands : List Operand) → Reads (fetchOperands operands)
  | [] => reads_pure _
  | _ :: rest =>
    reads_bind (reads_bind (reads_fetchBytes _) fun _ => reads_pure _) fun _ =>
      reads_bind (reads_fetchOperands rest) fun _ => reads_pure _

theorem reads_fetchInstr (op : Opcode) : Reads (fetchInstr op) := by
  refine reads_bind (reads_fetchOperands _) fun words => ?_
  split
  · exact reads_bind (reads_fetchBytes _) fun _ => reads_pure _
  · exact reads_pure _

theorem bind_of_run_eq {x y : Exec α} {m : Machine} (h : x m = y m) (f : α → Exec β) :
    (x >>= f) m = (y >>= f) m := by
  rw [run_bind, run_bind, h]

/-- Reading only moves the address, unless there is no address behind the opcode. -/
theorem read_moves (m : Machine) : read m = .error .unaddressable m ∨ Moves m (read m) := by
  by_cases hlast : m.frames.head?.map (·.ip) = some 0x7FFFFFFFFFFFFFFF
  · left
    simp only [read, fetchOpcode, run_bind, run_get, hlast, if_true, run_throw]
  · right
    have hopcode : fetchOpcode m = fetchByte m := by
      simp only [fetchOpcode, run_bind, run_get, hlast, if_false]
    have hbyte : Reads fetchByte :=
      reads_bind (reads_bind (reads_fetchBytes 1) fun _ => reads_pure _) fun _ => reads_pure _
    show Moves m ((fetchOpcode >>= _) m)
    rw [bind_of_run_eq hopcode]
    refine reads_bind hbyte (fun byte => ?_) m
    split
    · exact reads_kill (.inl rfl)
    · exact reads_fetchInstr _

end Exec

namespace Machine

/-! ## Outcomes -/

/-- The answer of a native, whose call stood at `start` and had its arguments above `below`. -/
def answer (start : Int) (below : OperandStack) (m : Machine) : Answer → Machine
  | .failed => m.kill .nativeFailure
  | .pending => { m.mapFrame fun f => { f with ip := start } with state := .waiting }
  | .done result => { m with stack := below }.push result

/-- A call of an id reaches a native with some arguments, and leaves the stack below them. -/
structure CallsNative (m : Machine) (id : Id) (native : Native) (arguments : List Value)
    (below : OperandStack) : Prop where
  /-- The id is not that of a function of the program. -/
  foreign : m.program.functions.get? id = none
  /-- It is that of a native. -/
  registered : m.natives.get? id = some native
  /-- The arguments of the native lie on the stack. -/
  arguments : m.stack.popMany? native.arity = some (arguments, below)

/-- What an instruction that was read can lead to, given the machine behind it. -/
inductive Outcome (start : Int) (i : Instr) (m : Machine) : Machine → Prop
  /-- An ordinary change. -/
  | changed {m' : Machine} : m.OrdinaryChange m' → Outcome start i m m'
  /-- An ordinary change, behind which the machine is killed. -/
  | failed {x : Machine} {code : KillCode} :
      m.OrdinaryChange x → code ∈ KillCode.acting → Outcome start i m (x.kill code)
  /-- The kill that the code asks for. -/
  | killed : i.op = .kill → Outcome start i m (m.kill (i.word 0))
  /-- A jump that is taken or not. -/
  | jumped (target : Int → Int) : i.op.isJump = true →
      Outcome start i m (m.mapFrame fun f => { f with ip := target f.ip })
  /-- A call of a function of the program. -/
  | entered {function : FunctionBody} : i.op = .call →
      m.program.functions.get? (i.word 0) = some function →
      Outcome start i m { m with
        frames := { id := i.word 0, function, cvDepth := m.savedCompares.length } :: m.frames }
  /-- A call of a native, which has replied. -/
  | answered {native : Native} {arguments : List Value} {below : OperandStack} : i.op = .call →
      m.CallsNative (i.word 0) native arguments below →
      Outcome start i m ((m.hear (i.word 0) (Exec.replyTo native (i.word 0) arguments m)).answer
        start below (Exec.replyTo native (i.word 0) arguments m).answer)
  /-- A return that leaves the call; the outermost one ends the run. -/
  | returned {f : Frame} {frames : List Frame} (stack : OperandStack) (result : Value)
      (state : MachineState) : i.op = .ret → m.frames = f :: frames →
      (state = m.state ∨ m.killFlag = false ∧ state = .finished) →
      Outcome start i m { m.leave f frames with stack, result, state }
  /-- A return without a value to give. -/
  | stranded {f : Frame} {frames : List Frame} (stack : OperandStack) : i.op = .ret →
      m.frames = f :: frames →
      Outcome start i m ({ m.leave f frames with stack }.kill .stackUnderflow)

theorem kept_answer (m : Machine) (start : Int) (below : OperandStack) (a : Answer) :
    m.Kept (m.answer start below a) := by
  cases a with
  | failed => exact .of_eq rfl rfl rfl
  | done result => exact .of_eq rfl rfl rfl
  | pending => exact (kept_mapFrame m _).trans (.of_eq rfl rfl rfl)

/-- Every outcome keeps what an instruction keeps. -/
theorem Outcome.kept {start : Int} {i : Instr} {m next : Machine} (h : Outcome start i m next) :
    m.Kept next := by
  cases h with
  | changed hchange => exact hchange.toKept
  | failed hchange _ => exact hchange.toKept.kill _
  | killed _ => exact .of_eq rfl rfl rfl
  | jumped _ _ => exact kept_mapFrame m _
  | entered _ _ => exact .of_eq rfl rfl rfl
  | answered _ _ => exact (kept_hear m _ _).trans (kept_answer _ _ _ _)
  | returned _ _ _ _ _ _ => exact .of_eq rfl rfl rfl
  | stranded _ _ _ => exact .of_eq rfl rfl rfl

/-- A return hands its value over, or finds none. -/
theorem settle_ret {m : Machine} {f : Frame} {frames : List Frame} (hframes : m.frames = f :: frames) :
    (∃ stack result state, settle (Exec.ret m) = .ok { m.leave f frames with stack, result, state }
      ∧ (state = m.state ∨ m.killFlag = false ∧ state = .finished))
    ∨ ∃ stack, settle (Exec.ret m) = .ok ({ m.leave f frames with stack }.kill .stackUnderflow) := by
  -- the value on top may first be given the declared type
  have hover : (∃ stack, Exec.handOver f.function.returnType (m.leave f frames)
        = .ok () { m.leave f frames with stack })
      ∨ Exec.handOver f.function.returnType (m.leave f frames)
        = .error .killed ((m.leave f frames).kill .stackUnderflow) := by
    rw [Exec.run_handOver]
    split
    · exact .inl ⟨(m.leave f frames).stack, rfl⟩
    · cases (m.leave f frames).stack.pop? with
      | none => exact .inr rfl
      | some top => exact .inl ⟨_, rfl⟩
  rw [Exec.run_ret hframes, Exec.run_bind]
  rcases hover with ⟨stack, hover⟩ | hover
  · rw [hover]
    simp only
    split
    · rw [Exec.run_finish]
      simp only
      cases stack.pop? with
      | none => exact .inr ⟨stack, rfl⟩
      | some top =>
          refine .inl ⟨top.2, top.1, _, rfl, ?_⟩
          have hflag : (m.leave f frames).killFlag = m.killFlag := rfl
          rw [hflag]
          cases m.killFlag with
          | true => exact .inl rfl
          | false => exact .inr ⟨rfl, rfl⟩
    · exact .inl ⟨stack, m.result, m.state, rfl, .inl rfl⟩
  · rw [hover]
    exact .inr ⟨m.stack, rfl⟩

/-- A return ends a frame, or the call of the host. -/
theorem outcome_ret {start : Int} {i : Instr} {m : Machine} (hop : i.op = .ret) :
    ∃ next, settle (Exec.ret m) = .ok next ∧ Outcome start i m next := by
  cases hframes : m.frames with
  | nil =>
      refine ⟨m, ?_, .changed (.refl m)⟩
      simp [Exec.ret, hframes, settle]
  | cons f frames =>
      rcases settle_ret hframes with ⟨stack, result, state, hret, hstate⟩ | ⟨stack, hret⟩
      · exact ⟨_, hret, .returned stack result state hop hframes hstate⟩
      · exact ⟨_, hret, .stranded stack hop hframes⟩

/-- A call that reaches a native: the machine hears its reply and takes the answer. -/
theorem settle_call_native {m : Machine} {id : Id} {native : Native} {arguments : List Value}
    {below : OperandStack} (h : m.CallsNative id native arguments below) (start : Int) :
    settle (Exec.call start id m)
      = .ok ((m.hear id (Exec.replyTo native id arguments m)).answer start below
        (Exec.replyTo native id arguments m).answer) := by
  simp only [Exec.run_call, h.foreign, h.registered, h.arguments]
  cases (Exec.replyTo native id arguments m).answer <;> rfl

/-- A call enters a function, reaches a native or finds nothing to call. -/
theorem outcome_call {start : Int} {i : Instr} {m : Machine} (hop : i.op = .call) :
    ∃ next, settle (Exec.call start (i.word 0) m) = .ok next ∧ Outcome start i m next := by
  cases hfunction : m.program.functions.get? (i.word 0) with
  | some function =>
      refine ⟨_, ?_, .entered hop hfunction⟩
      rw [Exec.run_call, hfunction]
      rfl
  | none =>
      cases hnative : m.natives.get? (i.word 0) with
      | none =>
          refine ⟨_, ?_, .failed (.refl m) (show KillCode.undefinedFunction ∈ KillCode.acting by decide)⟩
          simp only [Exec.run_call, hfunction, hnative]
          rfl
      | some native =>
          cases hpop : m.stack.popMany? native.arity with
          | none =>
              refine ⟨_, ?_, .failed (.refl m) (show KillCode.stackUnderflow ∈ KillCode.acting by decide)⟩
              simp only [Exec.run_call, hfunction, hnative, hpop]
              rfl
          | some taken =>
              have hcalls : m.CallsNative (i.word 0) native taken.1 taken.2 :=
                ⟨hfunction, hnative, hpop⟩
              exact ⟨_, settle_call_native hcalls start, .answered hop hcalls⟩

/-- A jump leaves the machine at one of two places. -/
theorem outcome_jump {start : Int} {i : Instr} {m : Machine} (hop : i.op.isJump = true)
    (conditional : Bool) (target : Int → Int) :
    ∃ next, settle (Exec.jump conditional target m) = .ok next ∧ Outcome start i m next := by
  rw [Exec.jump, Exec.run_modify]
  refine ⟨_, rfl, ?_⟩
  split
  · exact .jumped target hop
  · exact .changed (.refl m)

/-- Every instruction that was read leads to one of the outcomes. -/
theorem act_outcome (start : Int) (i : Instr) (m : Machine) :
    ∃ next, settle (Exec.act start i m) = .ok next ∧ Outcome start i m next := by
  by_cases hordinary : i.op.isOrdinary = true
  · have hleaves := Exec.ordinary_act start i hordinary m
    cases hrun : Exec.act start i m with
    | ok _ next =>
        rw [hrun] at hleaves
        exact ⟨next, rfl, .changed hleaves⟩
    | error stop next =>
        rw [hrun] at hleaves
        obtain ⟨rfl, x, code, hchange, hcode, rfl⟩ := hleaves
        exact ⟨_, rfl, .failed hchange hcode⟩
  · obtain ⟨op, operands, data⟩ := i
    cases op
    case jump | jumpBy | jumpIf | jumpIfBy =>
      simp only [Exec.act]
      exact outcome_jump rfl _ _
    case call => exact outcome_call rfl
    case ret => exact outcome_ret rfl
    case kill => exact ⟨_, rfl, .killed rfl⟩
    all_goals exact absurd rfl hordinary

/-- All that a step can do: it has no answer, or the fetch kills the machine, or an instruction is
read and carried out. -/
theorem step_cases (m : Machine) : m.step = .error ⟨m⟩
    ∨ (∃ ip code, m.step = .ok ((m.goto ip).kill code))
    ∨ ∃ i ip next, Exec.read m = .ok i (m.goto ip) ∧ m.step = .ok next
      ∧ Outcome m.place i (m.goto ip) next := by
  rw [step_eq, Exec.run_bind]
  rcases Exec.read_moves m with hread | hmoves
  · rw [hread]
    exact .inl rfl
  · cases hread : Exec.read m with
    | error stop m' =>
        rw [hread] at hmoves
        obtain ⟨rfl, ip, code, -, rfl⟩ := hmoves
        exact .inr (.inl ⟨ip, code, rfl⟩)
    | ok i m' =>
        rw [hread] at hmoves
        obtain ⟨ip, rfl⟩ := hmoves
        obtain ⟨next, hnext, houtcome⟩ := act_outcome m.place i (m.goto ip)
        exact .inr (.inr ⟨i, ip, next, rfl, hnext, houtcome⟩)

/-- No step changes program, natives or the types of the globals. -/
theorem step_kept {m next : Machine} (h : m.step = .ok next) : m.Kept next := by
  rcases step_cases m with hfails | ⟨ip, code, hkilled⟩ | ⟨i, ip, next', -, hnext, houtcome⟩
  · rw [hfails] at h
    cases h
  · obtain rfl := Except.ok.inj (hkilled.symm.trans h)
    exact (kept_mapFrame m _).kill code
  · obtain rfl := Except.ok.inj (hnext.symm.trans h)
    exact (kept_mapFrame m _).trans houtcome.kept

end Machine

end TickScript
