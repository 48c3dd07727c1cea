import TickScript.Proofs.Machine.Outcome
import TickScript.Proofs.Machine.Totality

/-!
# Machine and decoder

The layout of instructions is stated once for the decoder, as a table, and once for the machine, as
the fetches of each operation. `Machine.step_agrees_with_decoder` says that the two agree inside any
code: the machine reads an instruction exactly where the decoder finds one, and it is the same one;
the call then stands behind it, or at its target if it is a jump that is taken. Where the decoder
finds none, the step is a kill that touches nothing else.

`Machine.step` fetches its operands with widths of its own, so the equation
`decodeAt_eq_ok_iff_read` has content: it is proved from one comparison for each operation.
`CarriedOut` says what is left behind the step, in the terms in which a reader of a disassembly
thinks: the call is behind the instruction, at the target, above a new call, or back in the caller.
-/

namespace TickScript.Machine

/-- The instruction jumps. -/
def Jumps (m : Machine) (i : Instr) : Prop :=
  i.op.isJump = true
    ∧ (i.op.isConditional = true → m.compareFlag = true ∧ m.compareValue = true)

/-- The instruction calls a native that is not done. -/
def Defers (m : Machine) (i : Instr) : Prop :=
  i.op = .call ∧ ∃ native arguments below, m.CallsNative (i.word 0) native arguments below
    ∧ (Exec.replyTo native (i.word 0) arguments m).answer = .pending

/-- The instruction names the code of a kill itself, or calls a native that does. -/
def NamesKill (m : Machine) (i : Instr) : Prop :=
  i.op = .kill ∨ i.op = .call ∧ ∃ native arguments below code,
    m.CallsNative (i.word 0) native arguments below
      ∧ (Exec.replyTo native (i.word 0) arguments m).kill? = some code

/-- What is left when the instruction at `offset` in the call `f` was carried out. -/
structure CarriedOut (m : Machine) (f : Frame) (rest : List Frame) (offset : Nat) (i : Instr)
    (next : Machine) : Prop where
  /-- A return removes the call. -/
  returned : i.op = .ret → next.frames = rest
  /-- Otherwise the call is still there, at most below one that was entered. -/
  stayed : i.op ≠ .ret → ∃ above call, next.frames = above ++ call :: rest ∧ above.length ≤ 1
    ∧ call.function = f.function
    ∧ (m.Jumps i → call.ip = i.target offset)
    ∧ (m.Defers i → call.ip = offset)
    ∧ (¬ m.Jumps i → ¬ m.Defers i → call.ip = offset + i.size)
  /-- The codes of a failed fetch are left to instructions that name them. -/
  codes : m.killFlag = false → next.killFlag = true →
    next.killCode = .invalidOpcode ∨ next.killCode = .busFault → m.NamesKill i

variable {m next : Machine} {f : Frame} {rest : List Frame} {offset : Nat} {i : Instr}

/-! ## Which instructions do what -/

theorem not_jumps (h : i.op.isJump = false) : ¬ m.Jumps i := by
  rintro ⟨hjump, -⟩
  exact absurd (h.symm.trans hjump) (by decide)

/-- Only a call hands over to a native. -/
theorem not_defers (h : i.op ≠ .call) : ¬ m.Defers i := fun hdefers => h hdefers.1

/-- Which native is called, and with what, is determined by the machine. -/
theorem defers_iff {native : Native} {arguments : List Value} {below : OperandStack}
    (hop : i.op = .call) (hcalls : m.CallsNative (i.word 0) native arguments below) :
    m.Defers i ↔ (Exec.replyTo native (i.word 0) arguments m).answer = .pending := by
  constructor
  · rintro ⟨-, native', arguments', below', hcalls', hpending⟩
    obtain rfl := Option.some.inj (hcalls.registered.symm.trans hcalls'.registered)
    obtain ⟨rfl, -⟩ := Prod.mk.inj (Option.some.inj (hcalls.arguments.symm.trans hcalls'.arguments))
    exact hpending
  · exact fun hpending => ⟨hop, native, arguments, below, hcalls, hpending⟩

/-- No instruction that acts kills the machine the way a failed fetch does. -/
theorem not_fetch_of_acting {code : KillCode} (h : code ∈ KillCode.acting) :
    ¬ (code = .invalidOpcode ∨ code = .busFault) := by
  rintro (rfl | rfl)
  · exact absurd h (by decide)
  · exact absurd h (by decide)

/-- A machine that is not killed names no code. -/
theorem codes_of_killFlag {P : Prop} (hsame : next.killFlag = m.killFlag) (halive : m.killFlag = false)
    (hflag : next.killFlag = true) : P := by
  rw [hsame, halive] at hflag
  cases hflag

/-! ## One case for each kind of instruction -/

/-- An instruction that neither returns nor jumps nor defers leaves the call behind it. -/
theorem carriedOut_passed (above : List Frame) {locals : Table Id Value} (hret : i.op ≠ .ret)
    (hjump : ¬ m.Jumps i) (hdone : ¬ m.Defers i) (habove : above.length ≤ 1)
    (hcalls : next.frames = above ++ { f with ip := (offset + i.size : Nat), locals } :: rest)
    (hcodes : m.killFlag = false → next.killFlag = true →
      next.killCode = .invalidOpcode ∨ next.killCode = .busFault → m.NamesKill i) :
    m.CarriedOut f rest offset i next := by
  refine ⟨fun h => absurd h hret, fun _ => ⟨above, _, hcalls, habove, rfl, fun h => absurd h hjump,
    fun h => absurd h hdone, fun _ _ => ?_⟩, hcodes⟩
  push_cast
  rfl

/-- An ordinary instruction acts and leaves the machine behind itself. -/
theorem carriedOut_ordinary (hframes : m.frames = f :: rest) (hop : i.op.isOrdinary = true)
    (hnext : settle (Exec.act offset i (m.goto (offset + i.size : Nat))) = .ok next) :
    m.CarriedOut f rest offset i next := by
  obtain ⟨⟨⟨hjump, hcall⟩, hret⟩, -⟩ : ((i.op.isJump = false ∧ i.op ≠ .call) ∧ i.op ≠ .ret)
      ∧ i.op ≠ .kill := by
    simpa [Opcode.isOrdinary] using hop
  have hleaves := Exec.ordinary_act offset i hop (m.goto (offset + i.size : Nat))
  -- whatever it did, the call stands behind the instruction
  have hcalls {x : Machine} (hchange : (m.goto (offset + i.size : Nat)).OrdinaryChange x) :
      ∃ locals, x.frames = { f with ip := ((offset + i.size : Nat) : Int), locals } :: rest := by
    obtain ⟨locals, hlocals⟩ := hchange.frames
    rw [goto_eq hframes] at hlocals
    exact ⟨locals, hlocals⟩
  cases hrun : Exec.act offset i (m.goto (offset + i.size : Nat)) with
  -- it has gone on
  | ok _ x =>
      rw [hrun] at hleaves hnext
      obtain rfl := Except.ok.inj hnext
      obtain ⟨locals, hlocals⟩ := hcalls hleaves
      have hflag : x.killFlag = m.killFlag := by
        rw [Machine.OrdinaryChange.killFlag hleaves, goto_eq hframes]
      exact carriedOut_passed [] hret (not_jumps hjump) (not_defers hcall) (by simp)
        hlocals fun halive hkilled _ => codes_of_killFlag hflag halive hkilled
  -- it has ended the machine, with a code that no failed fetch has
  | error stop x =>
      rw [hrun] at hleaves hnext
      obtain ⟨rfl, y, code, hchange, hacting, rfl⟩ := hleaves
      obtain rfl := Except.ok.inj hnext
      obtain ⟨locals, hlocals⟩ := hcalls hchange
      exact carriedOut_passed [] hret (not_jumps hjump) (not_defers hcall) (by simp)
        hlocals fun _ _ hcode => absurd hcode (not_fetch_of_acting hacting)

/-- The four jumps are one operation. -/
theorem act_jump (hop : i.op.isJump = true) (start : Int) : Exec.act start i
    = Exec.jump i.op.isConditional fun ip =>
      if i.op.isRelative then ip + (i.word 0).toInt else (i.word 0).toInt := by
  obtain ⟨op, operands, data⟩ := i
  cases op <;> first | rfl | cases hop

/-- The target of a jump is absolute, or counted from behind the jump. -/
theorem target_eq (hop : i.op.isJump = true) : i.target offset
    = if i.op.isRelative then offset + i.size + (i.word 0).toInt else (i.word 0).toInt := by
  simp only [Instr.target, Instr.word, hop, if_true, List.head?_eq_getElem?]

/-- A jump leaves the machine at its target or behind itself. -/
theorem carriedOut_jump (hframes : m.frames = f :: rest) (hop : i.op.isJump = true)
    (hnext : settle (Exec.act offset i (m.goto (offset + i.size : Nat))) = .ok next) :
    m.CarriedOut f rest offset i next := by
  have hret : i.op ≠ .ret := by
    intro heq
    rw [heq] at hop
    cases hop
  have hcall : ¬ m.Defers i := by
    refine not_defers fun heq => ?_
    rw [heq] at hop
    cases hop
  -- the jump is taken if it is not conditional, or if the flag and the compare value say so
  rw [act_jump hop, Exec.jump, Exec.run_modify, goto_eq hframes] at hnext
  obtain rfl := Except.ok.inj hnext
  by_cases htaken : (!i.op.isConditional || m.compareFlag && m.compareValue) = true
  · have hjump : m.Jumps i := ⟨hop, fun hconditional => by simpa [hconditional] using htaken⟩
    rw [if_pos htaken]
    refine ⟨fun h => absurd h hret, fun _ => ⟨[], _, rfl, by simp, rfl, fun _ => ?_,
      fun h => absurd h hcall, fun h => absurd hjump h⟩,
      fun halive hkilled _ => codes_of_killFlag rfl halive hkilled⟩
    rw [target_eq hop]
    push_cast
    rfl
  · have hjump : ¬ m.Jumps i := by
      rintro ⟨-, hjump⟩
      refine htaken ?_
      cases hconditional : i.op.isConditional with
      | false => rfl
      | true => simpa using hjump hconditional
    rw [if_neg htaken]
    exact carriedOut_passed [] hret hjump hcall (by simp) rfl
      fun halive hkilled _ => codes_of_killFlag rfl halive hkilled

/-- A kill leaves the machine in the frame that it was in. -/
theorem carriedOut_kill (hframes : m.frames = f :: rest) (hop : i.op = .kill)
    (hnext : settle (Exec.act offset i (m.goto (offset + i.size : Nat))) = .ok next) :
    m.CarriedOut f rest offset i next := by
  have hact : Exec.act offset i = Exec.kill (i.word 0) := by simp only [Exec.act, hop]
  rw [hact, Exec.run_kill, goto_eq hframes] at hnext
  obtain rfl := Except.ok.inj hnext
  exact carriedOut_passed [] (by simp [hop]) (not_jumps (by rw [hop]; rfl))
    (not_defers (by simp [hop])) (by simp) rfl fun _ _ _ => .inl hop

/-- A return leaves the frame. -/
theorem carriedOut_ret (hframes : m.frames = f :: rest) (hop : i.op = .ret)
    (hnext : settle (Exec.act offset i (m.goto (offset + i.size : Nat))) = .ok next) :
    m.CarriedOut f rest offset i next := by
  have hact : Exec.act offset i = Exec.ret := by simp only [Exec.act, hop, Exec.execute]
  rw [hact, goto_eq hframes] at hnext
  rcases settle_ret (m := { m with frames := { f with ip := (offset + i.size : Nat) } :: rest }) rfl
    with ⟨stack, result, state, hret, -⟩ | ⟨stack, hret⟩
  · obtain rfl := Except.ok.inj (hnext.symm.trans hret)
    exact ⟨fun _ => rfl, fun h => absurd hop h,
      fun halive hkilled _ => codes_of_killFlag rfl halive hkilled⟩
  · obtain rfl := Except.ok.inj (hnext.symm.trans hret)
    exact ⟨fun _ => rfl, fun h => absurd hop h, fun _ _ hcode =>
      absurd hcode (not_fetch_of_acting (show KillCode.stackUnderflow ∈ KillCode.acting by decide))⟩

/-- A call that reaches a native: the native answers, or the call is to be made again. -/
theorem carriedOut_native {native : Native} {arguments : List Value} {below : OperandStack}
    (hop : i.op = .call) (hcalls : m.CallsNative (i.word 0) native arguments below)
    {past : Machine} (hpast : past = { m with frames := { f with ip := (offset + i.size : Nat) } :: rest })
    (hnext : next = (past.hear (i.word 0) (Exec.replyTo native (i.word 0) arguments m)).answer offset below
      (Exec.replyTo native (i.word 0) arguments m).answer) :
    m.CarriedOut f rest offset i next := by
  have hret : i.op ≠ .ret := by simp [hop]
  have hjump : ¬ m.Jumps i := not_jumps (by rw [hop]; rfl)
  -- the call is made again exactly if the native is not done
  have hdefers := defers_iff hop hcalls
  have hframes : (past.hear (i.word 0) (Exec.replyTo native (i.word 0) arguments m)).frames
      = { f with ip := ((offset + i.size : Nat) : Int) } :: rest := by
    rw [hear_frames, hpast]
  -- a machine that is killed here was killed by the native
  have hnames (halive : m.killFlag = false)
      (hkilled : (past.hear (i.word 0) (Exec.replyTo native (i.word 0) arguments m)).killFlag = true) :
      m.NamesKill i := by
    cases hkill : (Exec.replyTo native (i.word 0) arguments m).kill? with
    | some code => exact .inr ⟨hop, native, arguments, below, code, hcalls, hkill⟩
    | none =>
        rw [killFlag_hear past (i.word 0) hkill, hpast] at hkilled
        exact codes_of_killFlag rfl halive hkilled
  -- from here on only the answer counts
  generalize Exec.replyTo native (i.word 0) arguments m = reply at *
  generalize past.hear (i.word 0) reply = heard at *
  subst hnext
  cases hanswer : reply.answer with
  | failed =>
      refine carriedOut_passed [] hret hjump ?_ (by simp) hframes fun _ _ hcode => ?_
      · rw [hdefers, hanswer]
        exact nofun
      · exact absurd hcode (not_fetch_of_acting (show KillCode.nativeFailure ∈ KillCode.acting by decide))
  | done result =>
      refine carriedOut_passed [] hret hjump ?_ (by simp) hframes
        fun halive hkilled _ => hnames halive hkilled
      rw [hdefers, hanswer]
      exact nofun
  | pending =>
      refine ⟨fun h => absurd h hret, fun _ => ⟨[], { f with ip := offset }, ?_, by simp, rfl,
        fun h => absurd h hjump, fun _ => rfl, fun _ h => absurd (hdefers.2 hanswer) h⟩, ?_⟩
      · simp only [answer, mapFrame, hframes, List.nil_append]
      · intro halive hkilled _
        refine hnames halive ?_
        simpa only [answer, mapFrame, hframes] using hkilled

/-- A call opens a frame, asks a native or finds no function. -/
theorem carriedOut_call (hframes : m.frames = f :: rest) (hop : i.op = .call)
    (hnext : settle (Exec.act offset i (m.goto (offset + i.size : Nat))) = .ok next) :
    m.CarriedOut f rest offset i next := by
  have hret : i.op ≠ .ret := by simp [hop]
  have hjump : ¬ m.Jumps i := not_jumps (by rw [hop]; rfl)
  have hact : Exec.act offset i = Exec.call offset (i.word 0) := by simp only [Exec.act, hop]
  rw [hact, goto_eq hframes] at hnext
  cases hfunction : m.program.functions.get? (i.word 0) with
  -- a function of the program: a new call stands above this one, which is behind the instruction
  | some function =>
      simp only [Exec.run_call, hfunction] at hnext
      obtain rfl := Except.ok.inj hnext
      refine carriedOut_passed [_] hret hjump ?_ (by simp) rfl
        fun halive hkilled _ => codes_of_killFlag rfl halive hkilled
      rintro ⟨-, native, arguments, below, hcalls, -⟩
      exact absurd (hfunction.symm.trans hcalls.foreign) (by simp)
  | none =>
      cases hnative : m.natives.get? (i.word 0) with
      -- nothing has the id, so the machine kills itself over an instruction that was read
      | none =>
          simp only [Exec.run_call, hfunction, hnative] at hnext
          obtain rfl := Except.ok.inj hnext
          refine carriedOut_passed [] hret hjump ?_ (by simp) rfl fun _ _ hcode => ?_
          · rintro ⟨-, native, arguments, below, hcalls, -⟩
            exact absurd (hnative.symm.trans hcalls.registered) (by simp)
          · exact absurd hcode (not_fetch_of_acting (show KillCode.undefinedFunction ∈ KillCode.acting by decide))
      | some native =>
          cases hpop : m.stack.popMany? native.arity with
          | none =>
              simp only [Exec.run_call, hfunction, hnative, hpop] at hnext
              obtain rfl := Except.ok.inj hnext
              refine carriedOut_passed [] hret hjump ?_ (by simp) rfl fun _ _ hcode => ?_
              · rintro ⟨-, native', arguments, below, hcalls, -⟩
                obtain rfl := Option.some.inj (hnative.symm.trans hcalls.registered)
                exact absurd (hpop.symm.trans hcalls.arguments) (by simp)
              · exact absurd hcode (not_fetch_of_acting (show KillCode.stackUnderflow ∈ KillCode.acting by decide))
          -- a native with all its arguments
          | some taken =>
              have hcalls : m.CallsNative (i.word 0) native taken.1 taken.2 :=
                ⟨hfunction, hnative, hpop⟩
              refine carriedOut_native hop hcalls rfl ?_
              refine Except.ok.inj (hnext.symm.trans (settle_call_native ?_ offset))
              exact ⟨hfunction, hnative, hpop⟩

/-- Every instruction that decodes is carried out. -/
theorem step_carriedOut {code : Text} (hframes : m.frames = f :: rest) (hip : f.ip = offset)
    (hcode : f.function.code = code) (haddr : code.length < 2 ^ 63)
    (hdecode : Instr.decodeAt code offset = .ok i) :
    ∃ next, m.step = .ok next ∧ m.CarriedOut f rest offset i next := by
  obtain ⟨tail, hhead⟩ := Instr.decodeAt_eq_ok_iff.1 hdecode
  rw [step_of_decode ⟨f, rest, hframes, hip, hcode⟩ haddr hhead]
  obtain ⟨next, hnext, -⟩ := act_outcome offset i (m.goto (offset + i.size : Nat))
  refine ⟨next, hnext, ?_⟩
  by_cases hordinary : i.op.isOrdinary = true
  · exact carriedOut_ordinary hframes hordinary hnext
  · obtain ((hop | hop) | hop) | hop :
        ((i.op.isJump = true ∨ i.op = .call) ∨ i.op = .ret) ∨ i.op = .kill := by
      simpa [Opcode.isOrdinary, or_assoc, imp_iff_not_or] using hordinary
    · exact carriedOut_jump hframes hop hnext
    · exact carriedOut_call hframes hop hnext
    · exact carriedOut_ret hframes hop hnext
    · exact carriedOut_kill hframes hop hnext

/-! ## Reading is decoding -/

/-- What cannot be decoded is an unknown opcode or lies beyond the code. -/
theorem killCode_eq (e : DecodeError) :
    e.killCode = .invalidOpcode ∨ e.killCode = .busFault := by
  cases e <;> simp [DecodeError.killCode]

/-- Where the decoder finds no instruction, reading kills the machine and only moves the address. -/
theorem read_of_decodeAt_error {e : DecodeError} (hframes : m.frames = f :: rest) (hip : f.ip = offset)
    (haddr : f.function.code.length < 2 ^ 63) (hin : offset < f.function.code.length)
    (hdecode : Instr.decodeAt f.function.code offset = .error e) :
    ∃ ip : Int, Exec.read m = .error .killed { m with
      frames := { f with ip } :: rest
      stack := m.stack.push (.ofInt e.killCode.toInt)
      killFlag := true
      killCode := e.killCode
      state := .killed } := by
  obtain ⟨ip, hread⟩ := Exec.read_of_decode_error ⟨f, rest, hframes, hip, rfl⟩ haddr (by omega)
    (Instr.decodeAt_eq_error_iff.1 hdecode)
  refine ⟨ip, ?_⟩
  rw [hread, goto_eq hframes]
  rfl

/-- The machine reads an instruction exactly if the decoder finds it there. -/
theorem decodeAt_eq_ok_iff_read (hframes : m.frames = f :: rest) (hip : f.ip = offset)
    (haddr : f.function.code.length < 2 ^ 63) (hin : offset < f.function.code.length) :
    Instr.decodeAt f.function.code offset = .ok i
      ↔ Exec.read m = .ok i (m.goto (offset + i.size : Nat)) := by
  constructor
  · intro hdecode
    obtain ⟨tail, hhead⟩ := Instr.decodeAt_eq_ok_iff.1 hdecode
    exact Exec.read_of_decode ⟨f, rest, hframes, hip, rfl⟩ haddr hhead
  · intro hread
    cases hdecode : Instr.decodeAt f.function.code offset with
    | error e =>
        obtain ⟨ip, hfailed⟩ := read_of_decodeAt_error hframes hip haddr hin hdecode
        rw [hread] at hfailed
        cases hfailed
    | ok found =>
        obtain ⟨tail, hhead⟩ := Instr.decodeAt_eq_ok_iff.1 hdecode
        have hfound := Exec.read_of_decode ⟨f, rest, hframes, hip, rfl⟩ haddr hhead
        rw [hread] at hfound
        injection hfound with hfound
        rw [hfound]

/-- Machine and decoder agree on the instruction at an address of the code. A step reads an
instruction and carries out what was read; it reads exactly what the decoder finds there and leaves
the call behind it, or at the target of a jump; and where the decoder finds nothing, the step only
kills the machine, with one of the two codes of a failed fetch. The calls of natives that the step may
take are answered as `Reply` says, without a call of the machine. -/
theorem step_agrees_with_decoder (hframes : m.frames = f :: rest) (hip : f.ip = offset)
    (haddr : f.function.code.length < 2 ^ 63) (hin : offset < f.function.code.length) :
    m.step = settle ((Exec.read >>= Exec.act offset) m)
    ∧ (∀ i, Instr.decodeAt f.function.code offset = .ok i
      ↔ Exec.read m = .ok i (m.goto (offset + i.size : Nat)))
    ∧ (∀ i, Instr.decodeAt f.function.code offset = .ok i →
      ∃ next, m.step = .ok next ∧ m.CarriedOut f rest offset i next)
    ∧ ∀ e, Instr.decodeAt f.function.code offset = .error e →
      (e.killCode = .invalidOpcode ∨ e.killCode = .busFault)
      ∧ ∃ ip : Int, m.step = .ok { m with
        frames := { f with ip } :: rest
        stack := m.stack.push (.ofInt e.killCode.toInt)
        killFlag := true
        killCode := e.killCode
        state := .killed } := by
  have hstands : m.Stands f.function.code offset := ⟨f, rest, hframes, hip, rfl⟩
  have hstep : m.step = settle ((Exec.read >>= Exec.act offset) m) := by
    rw [step_eq, hstands.place_eq]
  refine ⟨hstep, fun i => decodeAt_eq_ok_iff_read hframes hip haddr hin, fun i hdecode => ?_,
    fun e hdecode => ⟨killCode_eq e, ?_⟩⟩
  · exact step_carriedOut hframes hip rfl haddr hdecode
  · obtain ⟨ip, hread⟩ := read_of_decodeAt_error hframes hip haddr hin hdecode
    exact ⟨ip, by rw [hstep, Exec.run_bind, hread]; rfl⟩

/-- A function whose code starts with a conditional jump to its own start and ends inside a second
instruction. -/
def cutShort : FunctionBody :=
  ⟨0, .void, (Instr.withWord .jumpIfBy (-3)).encode ++ [Opcode.call.byte, 1, 2]⟩

/-- The machine in which `cutShort` was called, with the jump armed. -/
def cutShortStarted (ip : Int) : Machine :=
  { ofProgram {} with
    frames := [{ id := 0, function := cutShort, ip }]
    compareValue := true
    compareFlag := true
    state := .running }

theorem cutShortStarted_agrees :
    (∃ next above call, (cutShortStarted 0).step = .ok next ∧ next.frames = above ++ [call]
      ∧ call.ip = 0)
    ∧ ∃ next, (cutShortStarted 3).step = .ok next ∧ next.killCode = .busFault
      ∧ next.locals = [] ∧ next.globals = [] := by
  constructor
  · have hdecode : Instr.decodeAt cutShort.code (0 : Nat) = .ok (.withWord .jumpIfBy (-3)) := by
      decide +kernel
    have hjumps : (cutShortStarted 0).Jumps (.withWord .jumpIfBy (-3)) := ⟨rfl, fun _ => ⟨rfl, rfl⟩⟩
    have hframes : (cutShortStarted 0).frames = [{ id := 0, function := cutShort, ip := (0 : Nat) }] := rfl
    obtain ⟨-, -, hcarried, -⟩ := step_agrees_with_decoder hframes rfl (by decide) (by decide)
    obtain ⟨next, hstep, hnext⟩ := hcarried _ hdecode
    obtain ⟨above, call, hframes, -, -, hjumped, -⟩ := hnext.stayed (by decide)
    exact ⟨next, above, call, hstep, hframes, hjumped hjumps⟩
  · have hdecode : Instr.decodeAt cutShort.code (3 : Nat) = .error (.cutOperand .call .id 4) := rfl
    have hframes : (cutShortStarted 3).frames = [{ id := 0, function := cutShort, ip := (3 : Nat) }] := rfl
    obtain ⟨-, -, -, hkilled⟩ := step_agrees_with_decoder hframes rfl (by decide) (by decide)
    obtain ⟨-, ip, hstep⟩ := hkilled _ hdecode
    exact ⟨_, hstep, rfl, rfl, rfl⟩

end TickScript.Machine
