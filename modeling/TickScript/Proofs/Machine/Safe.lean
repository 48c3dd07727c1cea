import TickScript.Proofs.Machine.Instruction
import TickScript.Proofs.Rendering
import TickScript.Proofs.Table

/-!
# Machines that cannot fault

`Safe w n frames stack saved` says that a machine with these calls, operands and saved compare values
can take `n` steps in the setting `w` without a fault of its own making. It speaks of every machine
with this control state: what else the machine holds, the globals above all, may change between two
steps as long as the setting stays. `SafeAt` is safety at an offset of a function in terms of a
shape: how many values and saved compare values lie above those of the caller, and which locals
exist. Each instruction has one rule that reads backwards: the offset is safe at the shape before the
instruction if the next offset is safe at the shape behind it.

Safety is a statement about a number of steps because code may loop: a jump back leads to an offset
that is already known to be safe for fewer steps, and a call to a function that is. There is thus no
need for an invariant of the loop or for an order on the functions; `SafeAt.mono` is all that is
used.

Kills with other codes remain possible in a safe machine, such as that of an undefined result or one
that the code asks for. A native may kill the machine with the code of a fault of its own accord;
`Onward` allows that and names the native (`Setting.Asks`).
-/

namespace TickScript

namespace KillCode

/-- The codes of faults that well-made code does not have. -/
def faults : List KillCode :=
  [invalidOpcode, busFault, stackUnderflow, undefinedVariable, undefinedFunction]

end KillCode

theorem BinaryOp.known_apply {op : BinaryOp} {a b v : Value} (h : op.apply a b = some v) :
    v.type.isKnown = true := by
  unfold apply at h
  split at h
  · exact Option.some.inj h ▸ rfl
  · split at h
    · obtain ⟨x, -, rfl⟩ := Option.map_eq_some_iff.mp h
      rfl
    · obtain ⟨x, -, rfl⟩ := Option.map_eq_some_iff.mp h
      split <;> rfl

namespace Machine

/-! ## Settings -/

/-- The operation that comes next. -/
def nextOpcode? (m : Machine) : Option Opcode :=
  match m.frames with
  | [] => none
  | f :: _ => (f.function.code[f.ip.toNat]?).bind Opcode.ofByte?

/-- Every value on the operand stack has at most as much data as can be popped. The words of a
literal are pushed one by one and are a value once another kind of operation follows. -/
def WithinLimit (m : Machine) : Prop :=
  m.nextOpcode? ≠ some .push → ∀ vs below, m.stack = OperandStack.pushAll vs below →
    (∀ v ∈ vs, v.type.isKnown = true) → ∀ v ∈ vs, v.data.length ≤ OperandStack.maxValueSize

theorem Next.nextOpcode? {m : Machine} {offset : Nat} {i : Instr} (h : m.Next offset i) :
    m.nextOpcode? = some i.op := by
  obtain ⟨f, rest, hframes, hip, hplaced, -⟩ := h
  obtain ⟨-, after, hdrop⟩ := hplaced.drop_eq
  have hbyte : f.function.code[offset]? = some i.op.byte := by
    rw [← Nat.add_zero offset, ← List.getElem?_drop, hdrop]
    rfl
  simp [Machine.nextOpcode?, hframes, hip, hbyte]

/-- What surrounds a run: the program, the natives, and the globals that there are. -/
structure Setting where
  /-- The program that is loaded. -/
  program : Program
  /-- The natives that are registered. -/
  natives : Table Id Native
  /-- The ids of the globals. -/
  globals : List Id

/-- A machine in a setting. -/
structure World (w : Setting) (m : Machine) : Prop where
  /-- The program is that of the setting. -/
  program : m.program = w.program
  /-- The natives are those of the setting. -/
  natives : m.natives = w.natives
  /-- The globals hold values of known types. -/
  known : m.globals.Known
  /-- Every global of the setting is there. -/
  present : ∀ id ∈ w.globals, m.globals.has id = true

/-- Some native kills with a code of its own accord. -/
def Setting.Asks (w : Setting) (code : KillCode) : Prop :=
  ∃ id native call, w.natives.get? id = some native ∧ (native.reply call).kill? = some code

/-- What a step may lead to: a kill, which is a fault only if a native asked for it, the end of the
outermost call with nothing left on the stacks, or a machine that goes on as `P` says. -/
structure Onward (w : Setting) (P : List Frame → OperandStack → List Bool → Prop) (m : Machine) :
    Prop where
  /-- The setting is the same. -/
  world : World w m
  /-- A fault is one that a native has asked for. -/
  killed : m.killFlag = true → m.killCode ∈ KillCode.faults → w.Asks m.killCode
  /-- A killed machine is marked as such. -/
  flagged : m.state = .killed → m.killFlag = true
  /-- A finished machine has empty stacks. -/
  ended : m.state = .finished → m.stack = [] ∧ m.savedCompares = []
  /-- Any other machine stands where it can go on. -/
  going : m.killFlag = false → m.state.isBusy = true → P m.frames m.stack m.savedCompares

/-- The next `n` steps are no faults, in whatever machine of the setting they are taken. -/
def Safe (w : Setting) : Nat → List Frame → OperandStack → List Bool → Prop
  | 0, _, _, _ => True
  | n + 1, frames, stack, saved => ∀ m : Machine, m.frames = frames → m.stack = stack →
    m.savedCompares = saved → m.state = .running → m.killFlag = false → World w m →
    m.WithinLimit → ∃ m', m.step = .ok m' ∧ Onward w (Safe w n) m'

variable {w : Setting} {n : Nat}

/-- Less may be known of where the machine goes on. -/
theorem Onward.imp {P Q : List Frame → OperandStack → List Bool → Prop} {m : Machine}
    (h : Onward w P m) (hPQ : ∀ frames stack saved, P frames stack saved → Q frames stack saved) :
    Onward w Q m :=
  ⟨h.world, h.killed, h.flagged, h.ended, fun halive hbusy => hPQ _ _ _ (h.going halive hbusy)⟩

theorem Safe.pred {frames : List Frame} {stack : OperandStack} {saved : List Bool}
    (h : Safe w (n + 1) frames stack saved) : Safe w n frames stack saved := by
  induction n generalizing frames stack saved with
  | zero => trivial
  | succ n ih =>
      intro m hframes hstack hsaved hstate halive hworld hlimit
      obtain ⟨m', hstep, honward⟩ := h m hframes hstack hsaved hstate halive hworld hlimit
      exact ⟨m', hstep, honward.imp fun _ _ _ => ih⟩

/-- What is safe for `n` steps is safe for fewer. -/
theorem Safe.mono {frames : List Frame} {stack : OperandStack} {saved : List Bool} {k : Nat}
    (h : Safe w n frames stack saved) (hk : k ≤ n) : Safe w k frames stack saved := by
  induction hk with
  | refl => exact h
  | step _ ih => exact ih h.pred

/-- A machine that runs on must be safe there. -/
theorem Onward.of_running {P : List Frame → OperandStack → List Bool → Prop} {m : Machine}
    (hworld : World w m) (hstate : m.state.isBusy = true) (halive : m.killFlag = false)
    (hP : P m.frames m.stack m.savedCompares) : Onward w P m where
  world := hworld
  killed hkilled := by rw [halive] at hkilled; cases hkilled
  flagged h := by rw [h] at hstate; cases hstate
  ended h := by rw [h] at hstate; cases hstate
  going _ _ := hP

/-- A machine that was killed with a harmless code has nothing more to do. -/
theorem Onward.of_killed {P : List Frame → OperandStack → List Bool → Prop} {m : Machine}
    (hworld : World w m) (hflag : m.killFlag = true) (hstate : m.state ≠ .finished)
    (hcode : m.killCode ∈ KillCode.faults → w.Asks m.killCode) : Onward w P m where
  world := hworld
  killed _ := hcode
  flagged _ := hflag
  ended h := absurd h hstate
  going h := by rw [hflag] at h; cases h

/-! ## Shapes -/

/-- A call in progress: its function and what lies below it on the stacks. -/
structure Activation where
  /-- The id under which the function was called. -/
  id : Id
  /-- What is called. -/
  function : FunctionBody
  /-- The calls further out. -/
  callers : List Frame
  /-- The operands below those of the call. -/
  base : OperandStack
  /-- The compare values that were saved before the call. -/
  saved : List Bool

/-- The frame of a call at an offset. -/
def Activation.frame (c : Activation) (offset : Nat) (locals : Table Id Value) : Frame :=
  ⟨c.id, c.function, offset, c.saved.length, locals⟩

/-- How much a call has on the stacks, and which locals exist. -/
structure Shape where
  /-- How many values lie on the stack since the call began. -/
  values : Nat
  /-- How many comparisons are saved. -/
  saves : Nat
  /-- Which variables are alive. -/
  locals : List Id

/-- Operands, saved compare values and locals of a shape. -/
structure Shape.Fits (σ : Shape) (vs : List Value) (cvs : List Bool) (locals : Table Id Value) :
    Prop where
  /-- As many values as the shape says. -/
  values : vs.length = σ.values
  /-- Each of a known type. -/
  knownValues : ∀ v ∈ vs, v.type.isKnown = true
  /-- As many saved compare values. -/
  saves : cvs.length = σ.saves
  /-- Locals of known types. -/
  knownLocals : locals.Known
  /-- Those that the shape lists are among them. -/
  locals : ∀ id ∈ σ.locals, locals.has id = true

/-- A call is safe for `n` steps at an offset, whatever it holds of a shape. -/
def SafeAt (w : Setting) (c : Activation) (n offset : Nat) (σ : Shape) : Prop :=
  ∀ vs cvs locals, σ.Fits vs cvs locals →
    Safe w n (c.frame offset locals :: c.callers) (OperandStack.pushAll vs c.base) (cvs ++ c.saved)

/-- A machine whose innermost call stands at an offset. -/
structure Stance (w : Setting) (c : Activation) (offset : Nat) (vs : List Value) (cvs : List Bool)
    (locals : Table Id Value) (m : Machine) : Prop where
  /-- The innermost call is at the offset. -/
  frames : m.frames = c.frame offset locals :: c.callers
  /-- Its values lie above those of the callers. -/
  stack : m.stack = OperandStack.pushAll vs c.base
  /-- And so do its saved compare values. -/
  saved : m.savedCompares = cvs ++ c.saved
  /-- The machine runs or waits. -/
  busy : m.state.isBusy = true
  /-- It was not killed. -/
  alive : m.killFlag = false
  /-- It is a machine in the setting. -/
  world : World w m

variable {c : Activation} {offset values saves : Nat} {ids : List Id} {σ τ : Shape}

theorem SafeAt.mono {k : Nat} (h : SafeAt w c n offset σ) (hk : k ≤ n) : SafeAt w c k offset σ :=
  fun vs cvs locals hfits => (h vs cvs locals hfits).mono hk

/-- Fewer locals are needed where a shape asks for fewer. -/
theorem SafeAt.weaken {ids' : List Id} (h : SafeAt w c n offset ⟨values, saves, ids⟩)
    (hsub : ids ⊆ ids') : SafeAt w c n offset ⟨values, saves, ids'⟩ :=
  fun vs cvs locals hfits => h vs cvs locals
    ⟨hfits.values, hfits.knownValues, hfits.saves, hfits.knownLocals,
      fun id hid => hfits.locals id (hsub hid)⟩

/-- An instruction is safe if it is safe in every machine that stands before it. -/
theorem SafeAt.of_step {i : Instr} (hcode : Placed c.function.code offset [i])
    (hshort : c.function.code.length < 2 ^ 63)
    (h : ∀ k, n = k + 1 → ∀ vs cvs locals (m : Machine), σ.Fits vs cvs locals →
      Stance w c offset vs cvs locals m → m.WithinLimit → m.Next offset i →
      ∃ m', m.step = .ok m' ∧ Onward w (Safe w k) m') :
    SafeAt w c n offset σ := by
  intro vs cvs locals hfits
  cases n with
  | zero => trivial
  | succ n =>
      intro m hframes hstack hsaved hstate halive hworld hlimit
      exact h n rfl vs cvs locals m hfits
        ⟨hframes, hstack, hsaved, by rw [hstate]; rfl, halive, hworld⟩ hlimit
        ⟨_, _, hframes, rfl, hcode, hshort⟩

/-! ## What the shapes say -/

/-- The world is what a step does not change. -/
theorem World.of_eq {m m' : Machine} (h : World w m) (hprogram : m'.program = m.program)
    (hnatives : m'.natives = m.natives) (hglobals : m'.globals = m.globals) : World w m' :=
  ⟨hprogram.trans h.program, hnatives.trans h.natives, hglobals ▸ h.known, hglobals ▸ h.present⟩

/-- One more value fits a shape with one more place. -/
theorem Shape.Fits.push {vs : List Value} {cvs : List Bool} {locals : Table Id Value} {v : Value}
    (h : Shape.Fits ⟨values, saves, ids⟩ vs cvs locals) (hv : v.type.isKnown = true) :
    Shape.Fits ⟨values + 1, saves, ids⟩ (vs ++ [v]) cvs locals := by
  refine ⟨by simp [h.values], fun u hu => ?_, h.saves, h.knownLocals, h.locals⟩
  rcases List.mem_append.mp hu with hu | hu
  · exact h.knownValues u hu
  · exact List.mem_singleton.mp hu ▸ hv

/-- A shape with a value on the stack has one to take. -/
theorem Shape.Fits.pop {vs : List Value} {cvs : List Bool} {locals : Table Id Value}
    (h : Shape.Fits ⟨values + 1, saves, ids⟩ vs cvs locals) : ∃ rest v, vs = rest ++ [v]
      ∧ v.type.isKnown = true ∧ Shape.Fits ⟨values, saves, ids⟩ rest cvs locals := by
  rcases vs.eq_nil_or_concat with rfl | ⟨rest, v, rfl⟩
  · cases h.values
  · have hlength := h.values
    refine ⟨rest, v, by simp, h.knownValues v (by simp), by simpa using hlength,
      fun u hu => h.knownValues u (by simp [hu]), h.saves, h.knownLocals, h.locals⟩

variable {vs : List Value} {cvs : List Bool} {locals : Table Id Value} {m : Machine}

theorem Stance.goto (h : Stance w c offset vs cvs locals m) (offset' : Nat) :
    Stance w c offset' vs cvs locals (m.goto offset') := by
  rw [goto_eq h.frames]
  exact ⟨rfl, h.stack, h.saved, h.busy, h.alive, h.world.of_eq rfl rfl rfl⟩

/-- Behind an instruction the machine stands at the next offset. -/
theorem Stance.past (h : Stance w c offset vs cvs locals m) (i : Instr) :
    Stance w c (offset + i.size) vs cvs locals (m.past offset i) :=
  h.goto (offset + i.size)

/-- Before any operation other than the push of a word, all operands can be popped. -/
theorem Stance.poppable {i : Instr} (h : Stance w c offset vs cvs locals m)
    (hlimit : m.WithinLimit) (hfits : σ.Fits vs cvs locals) (hnext : m.Next offset i)
    (hop : i.op ≠ .push) : ∀ v ∈ vs, v.Poppable := by
  have hsmall := hlimit (by rw [hnext.nextOpcode?]; simpa using hop) vs c.base h.stack
    hfits.knownValues
  exact fun v hv => ⟨hfits.knownValues v hv, hsmall v hv⟩

/-- The machine goes on if it stands at an offset that is safe. -/
theorem SafeAt.onward {k : Nat} (h : SafeAt w c n offset σ) (hk : k ≤ n)
    (hfits : σ.Fits vs cvs locals) (hs : Stance w c offset vs cvs locals m) :
    Onward w (Safe w k) m := by
  refine .of_running hs.world hs.busy hs.alive ?_
  rw [hs.frames, hs.stack, hs.saved]
  exact (h.mono hk) vs cvs locals hfits

/-- A value that is pushed must have a known type, or nobody could pop it. -/
theorem SafeAt.onward_push {k : Nat} {v : Value}
    (h : SafeAt w c n offset ⟨values + 1, saves, ids⟩) (hk : k ≤ n)
    (hfits : Shape.Fits ⟨values, saves, ids⟩ vs cvs locals) (hv : v.type.isKnown = true)
    (hs : Stance w c offset vs cvs locals m) : Onward w (Safe w k) (m.push v) := by
  refine h.onward hk (hfits.push hv)
    ⟨hs.frames, ?_, hs.saved, hs.busy, hs.alive, hs.world.of_eq rfl rfl rfl⟩
  simp [Machine.push, hs.stack, OperandStack.pushAll_concat]

/-- A variable that exists is found, and what it holds has a known type. -/
theorem Stance.lookup? {id : Id} (h : Stance w c offset vs cvs locals m)
    (hfits : Shape.Fits ⟨values, saves, ids⟩ vs cvs locals) (hid : id ∈ ids ∨ id ∈ w.globals) :
    ∃ v, m.lookup? id = some v ∧ v.type.isKnown = true := by
  have hlocals : m.locals = locals := by simp [Machine.locals, h.frames, Activation.frame]
  cases hget : locals.get? id with
  | some v => exact ⟨v, by simp [Machine.lookup?, hlocals, hget], hfits.knownLocals id v hget⟩
  | none =>
      have hglobal : m.globals.has id = true := by
        rcases hid with hid | hid
        · have hhas := hfits.locals id hid
          rw [Table.has_eq_isSome, hget] at hhas
          cases hhas
        · exact h.world.present id hid
      obtain ⟨v, hv⟩ := (Table.has_iff _ _).mp hglobal
      exact ⟨v, by simp [Machine.lookup?, hlocals, hget, hv], h.world.known id v hv⟩

/-- A write leaves a machine of the same shape. -/
theorem SafeAt.onward_assign {k : Nat} {id : Id} {v : Value} (h : SafeAt w c n offset σ)
    (hk : k ≤ n) (hfits : σ.Fits vs cvs locals) (hs : Stance w c offset vs cvs locals m)
    (hv : v.type.isKnown = true) : Onward w (Safe w k) (m.assign id v) := by
  unfold Machine.assign
  split
  · have hlocals : σ.Fits vs cvs (locals.set id v) :=
      ⟨hfits.values, hfits.knownValues, hfits.saves, hfits.knownLocals.set hv,
        fun id' hid' => (Table.has_set _ _ _ _).mpr (.inr (hfits.locals id' hid'))⟩
    refine h.onward hk hlocals ?_
    simp only [mapFrame, hs.frames]
    exact ⟨rfl, hs.stack, hs.saved, hs.busy, hs.alive, hs.world.of_eq rfl rfl rfl⟩
  · refine h.onward hk hfits ⟨hs.frames, hs.stack, hs.saved, hs.busy, hs.alive, ?_⟩
    exact ⟨hs.world.program, hs.world.natives, hs.world.known.set hv,
      fun id' hid' => (Table.has_set _ _ _ _).mpr (.inr (hs.world.present id' hid'))⟩

theorem Stance.withStack {vs' : List Value} (hs : Stance w c offset vs cvs locals m) :
    Stance w c offset vs' cvs locals { m with stack := OperandStack.pushAll vs' c.base } :=
  ⟨hs.frames, rfl, hs.saved, hs.busy, hs.alive, hs.world.of_eq rfl rfl rfl⟩

/-- The top operand can be popped, and the machine stands behind the instruction without it. -/
theorem Stance.pop {i : Instr} (hs : Stance w c offset vs cvs locals m) (hlimit : m.WithinLimit)
    (hfits : Shape.Fits ⟨values + 1, saves, ids⟩ vs cvs locals) (hnext : m.Next offset i)
    (hop : i.op ≠ .push) : ∃ rest v, v.Poppable ∧ Shape.Fits ⟨values, saves, ids⟩ rest cvs locals
      ∧ m.stack.pop? = some (v, OperandStack.pushAll rest c.base)
      ∧ Stance w c (offset + i.size) rest cvs locals
        { m.past offset i with stack := OperandStack.pushAll rest c.base } := by
  have hpoppable := hs.poppable hlimit hfits hnext hop
  obtain ⟨rest, v, rfl, -, hrest⟩ := hfits.pop
  have hv := hpoppable v (by simp)
  refine ⟨rest, v, hv, hrest, ?_, (hs.past i).withStack⟩
  rw [hs.stack, OperandStack.pushAll_concat, OperandStack.pop?_push_poppable hv]

/-- The two operands on top can be popped. -/
theorem Stance.popTwo {i : Instr} (hs : Stance w c offset vs cvs locals m) (hlimit : m.WithinLimit)
    (hfits : Shape.Fits ⟨values + 2, saves, ids⟩ vs cvs locals) (hnext : m.Next offset i)
    (hop : i.op ≠ .push) : ∃ above rest a b, Shape.Fits ⟨values, saves, ids⟩ rest cvs locals
      ∧ m.stack.pop? = some (b, above)
      ∧ OperandStack.pop? above = some (a, OperandStack.pushAll rest c.base)
      ∧ Stance w c (offset + i.size) rest cvs locals
        { m.past offset i with stack := OperandStack.pushAll rest c.base } := by
  have hpoppable := hs.poppable hlimit hfits hnext hop
  obtain ⟨above, b, rfl, -, habove⟩ := hfits.pop
  obtain ⟨rest, a, rfl, -, hrest⟩ := habove.pop
  refine ⟨OperandStack.pushAll (rest ++ [a]) c.base, rest, a, b, hrest, ?_, ?_,
    (hs.past i).withStack⟩
  · rw [hs.stack, OperandStack.pushAll_concat,
      OperandStack.pop?_push_poppable (hpoppable b (by simp))]
  · rw [OperandStack.pushAll_concat, OperandStack.pop?_push_poppable (hpoppable a (by simp))]

/-- A compare value was saved in this call, and one fewer is saved without it. -/
theorem Stance.unsave (hs : Stance w c offset vs cvs locals m)
    (hfits : Shape.Fits ⟨values, saves + 1, ids⟩ vs cvs locals) : ∃ cv rest,
      m.savedCompares = cv :: (rest ++ c.saved)
      ∧ Shape.Fits ⟨values, saves, ids⟩ vs rest locals := by
  obtain ⟨cv, rest, rfl⟩ := List.exists_cons_of_length_eq_add_one hfits.saves
  exact ⟨cv, rest, hs.saved, hfits.values, hfits.knownValues, by simpa using hfits.saves,
    hfits.knownLocals, hfits.locals⟩

/-! ## Rules for the operand stack -/

section Rules

variable (hshort : c.function.code.length < 2 ^ 63)

include hshort

/-- Words that are pushed one by one. -/
theorem Safe.pushWords {saved : List Bool} (words : List UInt64) {offset : Nat}
    {stack : OperandStack} (hcode : Placed c.function.code offset (words.map Instr.push))
    (h : Safe w n (c.frame (offset + Instr.sizeAll (words.map Instr.push)) locals :: c.callers)
      (words.reverse ++ stack) saved) :
    Safe w n (c.frame offset locals :: c.callers) stack saved := by
  induction words generalizing offset stack with
  | nil => exact h
  | cons word words ih =>
      have hrest : Safe w n (c.frame (offset + (Instr.push word).size) locals :: c.callers)
          (word :: stack) saved := by
        refine ih hcode.tail ?_
        simpa [Instr.sizeAll, Nat.add_assoc] using h
      cases n with
      | zero => trivial
      | succ n =>
          -- one push, behind which the machine has one word more and a step less to go
          intro m hframes hstack hsaved hstate halive hworld hlimit
          have hnext : m.Next offset (.push word) := ⟨_, _, hframes, rfl, hcode.head, hshort⟩
          refine ⟨_, step_push hnext, .of_running ?_ ?_ ?_ ?_⟩
          · rw [past, goto_eq hframes]
            exact hworld.of_eq rfl rfl rfl
          · rw [past, goto_eq hframes]
            simp only [hstate]
            rfl
          · rw [past, goto_eq hframes]
            exact halive
          · rw [past, goto_eq hframes]
            simp only [hsaved, hstack]
            exact hrest.pred

/-- Each lemma from here on is one instruction: safe if what is behind it is, in the shape that it
leaves. -/
theorem SafeAt.pushVar {id : Id} (hcode : Placed c.function.code offset [.withWord .pushVar id])
    (hnull : id ≠ Name.nullObject) (hattached : id ≠ Name.attachedObject)
    (hid : id ∈ ids ∨ id ∈ w.globals)
    (h : SafeAt w c n (offset + (Instr.withWord .pushVar id).size) ⟨values + 1, saves, ids⟩) :
    SafeAt w c n offset ⟨values, saves, ids⟩ := by
  refine .of_step hcode hshort fun k hk vs cvs locals m hfits hs hlimit hnext => ?_
  obtain ⟨v, hlookup, hv⟩ := hs.lookup? hfits hid
  refine ⟨_, step_pushVar hnext hnull hattached hlookup, ?_⟩
  exact h.onward_push (by omega) hfits hv (hs.past _)

theorem SafeAt.pushHandle {id : Id} (hcode : Placed c.function.code offset [.withWord .pushVar id])
    (hid : id = Name.nullObject ∨ id = Name.attachedObject)
    (h : SafeAt w c n (offset + (Instr.withWord .pushVar id).size) ⟨values + 1, saves, ids⟩) :
    SafeAt w c n offset ⟨values, saves, ids⟩ := by
  refine .of_step hcode hshort fun k hk vs cvs locals m hfits hs hlimit hnext => ?_
  have hpushed (handle : Int) : Onward w (Safe w k)
      ((m.past offset (.withWord .pushVar id)).push (.ofHandle handle)) :=
    h.onward_push (by omega) hfits rfl (hs.past _)
  rcases hid with rfl | rfl
  · exact ⟨_, step_pushNull hnext, hpushed _⟩
  · exact ⟨_, step_pushAttached hnext, hpushed _⟩

theorem SafeAt.pushCompare (hcode : Placed c.function.code offset [.plain .pushCompare])
    (h : SafeAt w c n (offset + (Instr.plain .pushCompare).size) ⟨values + 1, saves, ids⟩) :
    SafeAt w c n offset ⟨values, saves, ids⟩ := by
  refine .of_step hcode hshort fun k hk vs cvs locals m hfits hs hlimit hnext => ?_
  exact ⟨_, step_pushCompare hnext, h.onward_push (by omega) hfits rfl (hs.past _)⟩

theorem SafeAt.pop (hcode : Placed c.function.code offset [.plain .pop])
    (h : SafeAt w c n (offset + (Instr.plain .pop).size) ⟨values, saves, ids⟩) :
    SafeAt w c n offset ⟨values + 1, saves, ids⟩ := by
  refine .of_step hcode hshort fun k hk vs cvs locals m hfits hs hlimit hnext => ?_
  obtain ⟨rest, v, hv, hrest, hpop, hbelow⟩ := hs.pop hlimit hfits hnext (by simp [Instr.plain])
  exact ⟨_, step_pop hnext hpop, h.onward (by omega) hrest hbelow⟩

/-- An undefined result is a harmless kill. -/
theorem SafeAt.arithmetic {op : Opcode} {binary : BinaryOp}
    (hcode : Placed c.function.code offset [.plain op]) (hop : op.binary? = some binary)
    (h : SafeAt w c n (offset + (Instr.plain op).size) ⟨values + 1, saves, ids⟩) :
    SafeAt w c n offset ⟨values + 2, saves, ids⟩ := by
  refine .of_step hcode hshort fun k hk vs cvs locals m hfits hs hlimit hnext => ?_
  have hne : (Instr.plain op).op ≠ .push := by
    rintro rfl
    cases hop
  obtain ⟨above, rest, a, b, hrest, hright, hleft, hbelow⟩ := hs.popTwo hlimit hfits hnext hne
  refine ⟨_, step_arithmetic hnext hop hright hleft, ?_⟩
  cases happly : binary.apply a b with
  | none =>
      refine .of_killed (hbelow.world.of_eq rfl rfl rfl) rfl nofun fun hfault => ?_
      have hcode : KillCode.divisionByZero ∉ KillCode.faults := by decide
      exact absurd hfault hcode
  | some v => exact h.onward_push (by omega) hrest (BinaryOp.known_apply happly) hbelow

theorem SafeAt.instantiate (hcode : Placed c.function.code offset [.plain .instantiate])
    (h : SafeAt w c n (offset + (Instr.plain .instantiate).size) ⟨values + 1, saves, ids⟩) :
    SafeAt w c n offset ⟨values + 1, saves, ids⟩ := by
  refine .of_step hcode hshort fun k hk vs cvs locals m hfits hs hlimit hnext => ?_
  obtain ⟨rest, v, hv, hrest, hpop, hbelow⟩ := hs.pop hlimit hfits hnext (by simp [Instr.plain])
  refine ⟨_, step_instantiate hnext hpop, ?_⟩
  split
  · exact h.onward_push (by omega) hrest rfl
      ⟨hbelow.frames, rfl, hbelow.saved, hbelow.busy, hbelow.alive, hbelow.world.of_eq rfl rfl rfl⟩
  · exact h.onward_push (by omega) hrest rfl hbelow

theorem SafeAt.object {op : Opcode} (hcode : Placed c.function.code offset [.plain op])
    (hop : op = .delete ∨ op = .attach ∨ op = .detach)
    (h : SafeAt w c n (offset + (Instr.plain op).size) ⟨values + 1, saves, ids⟩) :
    SafeAt w c n offset ⟨values + 1, saves, ids⟩ := by
  refine .of_step hcode hshort fun k hk vs cvs locals m hfits hs hlimit hnext => ?_
  have hne : (Instr.plain op).op ≠ .push := by rcases hop with rfl | rfl | rfl <;> decide
  obtain ⟨rest, v, hv, hrest, hpop, hbelow⟩ := hs.pop hlimit hfits hnext hne
  refine ⟨_, step_object hnext hop hpop, ?_⟩
  split
  · exact h.onward_push (by omega) hrest rfl
      ⟨hbelow.frames, rfl, hbelow.saved, hbelow.busy, hbelow.alive, hbelow.world.of_eq rfl rfl rfl⟩
  · exact h.onward_push (by omega) hrest rfl hbelow

/-- The words of a literal make up one more value. -/
theorem SafeAt.literal {v : Value}
    (hcode : Placed c.function.code offset (Instr.literal v.type v.data))
    (hv : v.type.isKnown = true)
    (h : SafeAt w c n (offset + Instr.sizeAll (Instr.literal v.type v.data))
      ⟨values + 1, saves, ids⟩) :
    SafeAt w c n offset ⟨values, saves, ids⟩ := by
  intro vs cvs locals hfits
  have hpushed := h (vs ++ [v]) cvs locals (hfits.push hv)
  rw [OperandStack.pushAll_concat] at hpushed
  have hwords : Instr.literal v.type v.data = (OperandStack.words v).map Instr.push := by
    simp [Instr.literal, OperandStack.words]
  rw [hwords] at hcode hpushed
  exact Safe.pushWords hshort (OperandStack.words v) hcode hpushed

/-! ## Rules for variables -/

theorem SafeAt.popVar {id : Id} (hcode : Placed c.function.code offset [.withWord .popVar id])
    (hid : id ∈ ids ∨ id ∈ w.globals)
    (h : SafeAt w c n (offset + (Instr.withWord .popVar id).size) ⟨values, saves, ids⟩) :
    SafeAt w c n offset ⟨values + 1, saves, ids⟩ := by
  refine .of_step hcode hshort fun k hk vs cvs locals m hfits hs hlimit hnext => ?_
  obtain ⟨rest, v, hv, hrest, hpop, hbelow⟩ := hs.pop hlimit hfits hnext (by simp [Instr.withWord])
  obtain ⟨old, hlookup, hold⟩ := hs.lookup? hfits hid
  refine ⟨_, step_popVar hnext hpop hlookup, h.onward_assign (by omega) hrest hbelow ?_⟩
  rw [Value.type_convert hold]
  exact hold

theorem SafeAt.set {id : Id} {data : Text} (hcode : Placed c.function.code offset [.set id data])
    (hid : id ∈ ids ∨ id ∈ w.globals)
    (h : SafeAt w c n (offset + (Instr.set id data).size) ⟨values, saves, ids⟩) :
    SafeAt w c n offset ⟨values, saves, ids⟩ := by
  refine .of_step hcode hshort fun k hk vs cvs locals m hfits hs hlimit hnext => ?_
  obtain ⟨old, hlookup, hold⟩ := hs.lookup? hfits hid
  exact ⟨_, step_set hnext hlookup, h.onward_assign (by omega) hfits (hs.past _) hold⟩

/-- The new variable is alive behind the instruction, with the zero of a type that can be stored. -/
theorem SafeAt.allocate {size : UInt64} {type : VarType} {id : Id}
    (hcode : Placed c.function.code offset [.allocate size type id]) (htype : type.Storable)
    (h : SafeAt w c n (offset + (Instr.allocate size type id).size) ⟨values, saves, id :: ids⟩) :
    SafeAt w c n offset ⟨values, saves, ids⟩ := by
  refine .of_step hcode hshort fun k hk vs cvs locals m hfits hs hlimit hnext => ?_
  have hmoved := hs.past (.allocate size type id)
  have hlocals : Shape.Fits ⟨values, saves, id :: ids⟩ vs cvs (locals.set id (.zero type)) := by
    refine ⟨hfits.values, hfits.knownValues, hfits.saves,
      hfits.knownLocals.set (Value.fills_zero htype).known, fun id' hid' => ?_⟩
    rw [Table.has_set]
    exact (List.mem_cons.mp hid').imp_right (hfits.locals id')
  refine ⟨_, step_allocate hnext, h.onward (by omega) hlocals ?_⟩
  simp only [Machine.allocate, mapFrame, hmoved.frames]
  exact ⟨rfl, hmoved.stack, hmoved.saved, hmoved.busy, hmoved.alive, hmoved.world.of_eq rfl rfl rfl⟩

/-- What is freed is not alive any more. -/
theorem SafeAt.free {id : Id} {ids' : List Id}
    (hcode : Placed c.function.code offset [.withWord .free id]) (hsub : ids' ⊆ ids)
    (hid : id ∉ ids')
    (h : SafeAt w c n (offset + (Instr.withWord .free id).size) ⟨values, saves, ids'⟩) :
    SafeAt w c n offset ⟨values, saves, ids⟩ := by
  refine .of_step hcode hshort fun k hk vs cvs locals m hfits hs hlimit hnext => ?_
  have hmoved := hs.past (.withWord .free id)
  have hlocals : Shape.Fits ⟨values, saves, ids'⟩ vs cvs (locals.erase id) := by
    refine ⟨hfits.values, hfits.knownValues, hfits.saves, hfits.knownLocals.erase id,
      fun id' hid' => ?_⟩
    have hne : id' ≠ id := by
      rintro rfl
      exact hid hid'
    have hhas := hfits.locals id' (hsub hid')
    rw [Table.has_iff] at hhas ⊢
    rwa [Table.get?_erase, if_neg hne]
  refine ⟨_, step_free hnext, h.onward (by omega) hlocals ?_⟩
  simp only [Machine.free, mapFrame, hmoved.frames]
  exact ⟨rfl, hmoved.stack, hmoved.saved, hmoved.busy, hmoved.alive, hmoved.world.of_eq rfl rfl rfl⟩

/-! ## Rules for the compare value -/

theorem SafeAt.setFlag (hcode : Placed c.function.code offset [.plain .setFlag])
    (h : SafeAt w c n (offset + (Instr.plain .setFlag).size) σ) : SafeAt w c n offset σ := by
  refine .of_step hcode hshort fun k hk vs cvs locals m hfits hs hlimit hnext => ?_
  have hmoved := hs.past (.plain .setFlag)
  exact ⟨_, step_setFlag hnext, h.onward (by omega) hfits ⟨hmoved.frames, hmoved.stack,
    hmoved.saved, hmoved.busy, hmoved.alive, hmoved.world.of_eq rfl rfl rfl⟩⟩

theorem SafeAt.saveCompare (hcode : Placed c.function.code offset [.plain .saveCompare])
    (h : SafeAt w c n (offset + (Instr.plain .saveCompare).size) ⟨values, saves + 1, ids⟩) :
    SafeAt w c n offset ⟨values, saves, ids⟩ := by
  refine .of_step hcode hshort fun k hk vs cvs locals m hfits hs hlimit hnext => ?_
  have hmoved := hs.past (.plain .saveCompare)
  have hsaved : Shape.Fits ⟨values, saves + 1, ids⟩ vs (m.compareValue :: cvs) locals :=
    ⟨hfits.values, hfits.knownValues, by simp [hfits.saves], hfits.knownLocals, hfits.locals⟩
  exact ⟨_, step_saveCompare hnext, h.onward (by omega) hsaved ⟨hmoved.frames, hmoved.stack,
    by simp [hs.saved], hmoved.busy, hmoved.alive, hmoved.world.of_eq rfl rfl rfl⟩⟩

theorem SafeAt.restoreCompare (hcode : Placed c.function.code offset [.plain .restoreCompare])
    (h : SafeAt w c n (offset + (Instr.plain .restoreCompare).size) ⟨values, saves, ids⟩) :
    SafeAt w c n offset ⟨values, saves + 1, ids⟩ := by
  refine .of_step hcode hshort fun k hk vs cvs locals m hfits hs hlimit hnext => ?_
  have hmoved := hs.past (.plain .restoreCompare)
  obtain ⟨cv, rest, hsaved, hrest⟩ := hs.unsave hfits
  exact ⟨_, step_restoreCompare hnext hsaved, h.onward (by omega) hrest ⟨hmoved.frames,
    hmoved.stack, rfl, hmoved.busy, hmoved.alive, hmoved.world.of_eq rfl rfl rfl⟩⟩

/-- The saved comparison is there to combine with. -/
theorem SafeAt.combine {connective : Connective}
    (hcode : Placed c.function.code offset [.combine connective])
    (h : SafeAt w c n (offset + (Instr.combine connective).size) ⟨values, saves, ids⟩) :
    SafeAt w c n offset ⟨values, saves + 1, ids⟩ := by
  refine .of_step hcode hshort fun k hk vs cvs locals m hfits hs hlimit hnext => ?_
  have hmoved := hs.past (.combine connective)
  obtain ⟨cv, rest, hsaved, hrest⟩ := hs.unsave hfits
  exact ⟨_, step_combine hnext hsaved, h.onward (by omega) hrest ⟨hmoved.frames,
    hmoved.stack, rfl, hmoved.busy, hmoved.alive, hmoved.world.of_eq rfl rfl rfl⟩⟩

theorem SafeAt.compare {relation : Relation}
    (hcode : Placed c.function.code offset [.compare relation])
    (h : SafeAt w c n (offset + (Instr.compare relation).size) ⟨values, saves, ids⟩) :
    SafeAt w c n offset ⟨values + 2, saves, ids⟩ := by
  refine .of_step hcode hshort fun k hk vs cvs locals m hfits hs hlimit hnext => ?_
  obtain ⟨above, rest, a, b, hrest, hright, hleft, hbelow⟩ :=
    hs.popTwo hlimit hfits hnext (by simp [Instr.compare, Instr.withWord])
  exact ⟨_, step_compare hnext hright hleft, h.onward (by omega) hrest ⟨hbelow.frames,
    hbelow.stack, hbelow.saved, hbelow.busy, hbelow.alive, hbelow.world.of_eq rfl rfl rfl⟩⟩

/-! ## Rules for control -/

/-- A jump is safe if its target is, in the same shape. -/
theorem SafeAt.jumpBy {distance : Int} {target : Nat}
    (hcode : Placed c.function.code offset [.withWord .jumpBy (Int64.ofInt distance)])
    (hlow : -0x8000 ≤ distance) (hhigh : distance < 0x8000)
    (htarget : (offset : Int) + 3 + distance = target) (h : SafeAt w c n target σ) :
    SafeAt w c n offset σ := by
  refine .of_step hcode hshort fun k hk vs cvs locals m hfits hs hlimit hnext => ?_
  refine ⟨_, step_jumpBy hlow hhigh hnext, h.onward (by omega) hfits ?_⟩
  rw [htarget]
  exact hs.goto target

/-- A conditional jump is safe if the offset behind it is, and if its target is safe for the steps
that are left once the jump is taken. -/
theorem SafeAt.jumpIfBy {distance : Int} {target : Nat}
    (hcode : Placed c.function.code offset [.withWord .jumpIfBy (Int64.ofInt distance)])
    (hlow : -0x8000 ≤ distance) (hhigh : distance < 0x8000)
    (htarget : (offset : Int) + 3 + distance = target)
    (hjump : ∀ k < n, SafeAt w c k target σ) (h : SafeAt w c n (offset + 3) σ) :
    SafeAt w c n offset σ := by
  refine .of_step hcode hshort fun k hk vs cvs locals m hfits hs hlimit hnext => ?_
  refine ⟨_, step_jumpIfBy hlow hhigh hnext, ?_⟩
  split
  · refine (hjump k (by omega)).onward le_rfl hfits ?_
    rw [htarget]
    exact hs.goto target
  · exact h.onward (by omega) hfits (hs.goto (offset + 3))

/-- What a call relies on: it has the outermost call's stacks for itself, or its caller can go on
with any result. -/
structure Resumes (w : Setting) (c : Activation) (n : Nat) : Prop where
  outermost : c.callers = [] → c.base = [] ∧ c.saved = []
  inner : c.callers ≠ [] → ∀ v : Value, v.type.isKnown = true →
    Safe w n c.callers (c.base.push v) c.saved

omit hshort in
theorem Resumes.mono {k : Nat} (h : Resumes w c n) (hk : k ≤ n) : Resumes w c k :=
  ⟨h.outermost, fun hcallers v hv => (h.inner hcallers v hv).mono hk⟩

/-- A return is safe if the caller is, with the result on top of its values. -/
theorem SafeAt.ret (hcode : Placed c.function.code offset [.plain .ret])
    (htype : c.function.returnType.isKnown = true) (h : Resumes w c n) :
    SafeAt w c n offset ⟨1, saves, ids⟩ := by
  refine .of_step hcode hshort fun k hk vs cvs locals m hfits hs hlimit hnext => ?_
  have hpoppable := hs.poppable hlimit hfits hnext (by simp [Instr.plain])
  obtain ⟨rest, v, rfl, hv, hrest⟩ := hfits.pop
  obtain rfl : rest = [] := List.length_eq_zero_iff.mp hrest.values
  have hstack : m.stack = c.base.push v := hs.stack
  -- the result takes the type of the function and is still small enough to be popped
  have hresult : (c.function.result v).Poppable := by
    have hsmall := (hpoppable v (by simp)).small
    unfold FunctionBody.result
    split
    · exact ⟨hv, hsmall⟩
    · refine ⟨?_, Value.length_convert_le hsmall _⟩
      rw [Value.type_convert htype]
      exact htype
  -- leaving the call cuts the saved compare values back to those of the caller
  have hcut : m.savedCompares.drop (m.savedCompares.length - (c.frame offset locals).cvDepth)
      = c.saved := by
    simp [hs.saved, Activation.frame]
  by_cases hcallers : c.callers = []
  · -- the outermost call: the machine ends with empty stacks
    obtain ⟨hbase, hsaved⟩ := h.outermost hcallers
    refine ⟨_, step_ret_outermost hnext (by rw [hs.frames, hcallers]) hstack
      (hpoppable v (by simp)) hresult hs.alive, ?_⟩
    refine ⟨hs.world.of_eq rfl rfl rfl, fun hkilled => ?_, fun hstate => (by cases hstate),
      fun _ => ⟨hbase, ?_⟩, fun _ hbusy => (by cases hbusy)⟩
    · have hflag : m.killFlag = true := hkilled
      rw [hs.alive] at hflag
      cases hflag
    · simp only [leave, hcut, hsaved]
  · -- any other call: the caller goes on with the result on top
    refine ⟨_, step_ret hnext hs.frames hcallers hstack (hpoppable v (by simp)), ?_⟩
    refine .of_running (hs.world.of_eq rfl rfl rfl) hs.busy hs.alive ?_
    simp only [leave, hcut]
    exact (h.mono (by omega)).inner hcallers _ hresult.known

/-- A call of the program is safe if the function is safe for the steps behind the call. -/
theorem SafeAt.call {id : Id} {function : FunctionBody} {count : Nat}
    (hcode : Placed c.function.code offset [.withWord .call id])
    (hfunction : w.program.functions.get? id = some function)
    (hcallee : ∀ k < n, ∀ callee : Activation, callee.id = id → callee.function = function →
      Resumes w callee k → SafeAt w callee k 0 ⟨count, 0, []⟩)
    (h : SafeAt w c n (offset + (Instr.withWord .call id).size) ⟨values + 1, saves, ids⟩) :
    SafeAt w c n offset ⟨values + count, saves, ids⟩ := by
  refine .of_step hcode hshort fun k hk vs cvs locals m hfits hs hlimit hnext => ?_
  have hmoved := hs.past (.withWord .call id)
  have hlength : vs.length = values + count := hfits.values
  -- the values are those of the caller and the arguments on top of them
  obtain ⟨below, args, rfl, hbelow, hargs⟩ :
      ∃ below args, vs = below ++ args ∧ below.length = values ∧ args.length = count :=
    ⟨vs.take values, vs.drop values, by simp, by simp; omega, by simp; omega⟩
  have hrest : Shape.Fits ⟨values, saves, ids⟩ below cvs locals :=
    ⟨hbelow, fun v hv => hfits.knownValues v (by simp [hv]), hfits.saves, hfits.knownLocals,
      hfits.locals⟩
  -- the new call, with all the rest of the machine below it
  let callee : Activation := ⟨id, function, c.frame (offset + (Instr.withWord .call id).size) locals
    :: c.callers, OperandStack.pushAll below c.base, cvs ++ c.saved⟩
  -- the caller can go on with any result, since it is safe behind the instruction
  have hresumes : Resumes w callee k := by
    refine ⟨fun hcallers => (by cases hcallers), fun _ v hv => ?_⟩
    have hback := (h.mono (by omega : k ≤ n)) (below ++ [v]) cvs locals (hrest.push hv)
    rwa [OperandStack.pushAll_concat] at hback
  refine ⟨_, step_call hnext (by rw [hs.world.program]; exact hfunction), ?_⟩
  have hentry : Shape.Fits ⟨count, 0, []⟩ args [] [] :=
    ⟨hargs, fun v hv => hfits.knownValues v (by simp [hv]), rfl, fun _ _ hget => (by cases hget),
      fun _ hid => (by cases hid)⟩
  refine (hcallee k (by omega) callee rfl rfl hresumes).onward le_rfl hentry ?_
  refine ⟨?_, ?_, hmoved.saved, hmoved.busy, hmoved.alive, hmoved.world.of_eq rfl rfl rfl⟩
  · simp only [hmoved.frames, hs.saved]
    rfl
  · exact hmoved.stack.trans (OperandStack.pushAll_append _ _ _)

omit hshort in
/-- Before its answer counts, the reply of a native only kills the machine, if it asks for that. -/
theorem Stance.hear {id : Id} {native : Native} {call : NativeCall}
    (hs : Stance w c offset vs cvs locals m) (hnative : w.natives.get? id = some native) :
    Stance w c offset vs cvs locals (m.hear id (native.reply call))
      ∨ World w (m.hear id (native.reply call))
        ∧ (m.hear id (native.reply call)).killFlag = true
        ∧ (m.hear id (native.reply call)).state = .killed
        ∧ w.Asks (m.hear id (native.reply call)).killCode := by
  unfold Machine.hear
  cases hkill : (native.reply call).kill? with
  | none =>
      exact .inl ⟨hs.frames, hs.stack, hs.saved, hs.busy, hs.alive, hs.world.of_eq rfl rfl rfl⟩
  | some code => exact .inr ⟨hs.world.of_eq rfl rfl rfl, rfl, rfl, id, native, call, hnative, hkill⟩

/-- The call of a native with its number of arguments is safe, however often it has to be called. -/
theorem SafeAt.callNative {id : Id} {native : Native}
    (hcode : Placed c.function.code offset [.withWord .call id])
    (hfunction : w.program.functions.get? id = none) (hnative : w.natives.get? id = some native)
    (hresult : ∀ call v, (native.reply call).answer = .done v → v.type.isKnown = true)
    (h : SafeAt w c n (offset + (Instr.withWord .call id).size) ⟨values + 1, saves, ids⟩) :
    SafeAt w c n offset ⟨values + (native.arity), saves, ids⟩ := by
  induction n with
  | zero => exact fun _ _ _ _ => trivial
  | succ n ih =>
      -- a native that is not done is called again from the same place, with a step less to go
      have hagain := ih (h.mono (Nat.le_succ n))
      refine .of_step hcode hshort fun k hk vs cvs locals m hfits hs hlimit hnext => ?_
      obtain rfl : n = k := by omega
      have hpoppable := hs.poppable hlimit hfits hnext (by simp [Instr.withWord])
      have hlength : vs.length = values + (native.arity) := hfits.values
      obtain ⟨below, args, rfl, hbelow, hargs⟩ :
          ∃ below args, vs = below ++ args ∧ below.length = values ∧ args.length = native.arity :=
        ⟨vs.take values, vs.drop values, by simp, by simp; omega, by simp; omega⟩
      have hrest : Shape.Fits ⟨values, saves, ids⟩ below cvs locals :=
        ⟨hbelow, fun v hv => hfits.knownValues v (by simp [hv]), hfits.saves, hfits.knownLocals,
          hfits.locals⟩
      -- the arguments are popped together
      have hpop : m.stack.popMany? native.arity
          = some (args, OperandStack.pushAll below c.base) := by
        rw [hs.stack, OperandStack.pushAll_append, ← hargs]
        exact OperandStack.popMany?_pushAll _ _ fun v hv => hpoppable v (by simp [hv])
      obtain ⟨_, ⟨call, rfl⟩, hstep⟩ := step_callNative hnext
        (by rw [hs.world.program]; exact hfunction) (by rw [hs.world.natives]; exact hnative) hpop
      refine ⟨_, hstep, ?_⟩
      -- three answers; before any of them counts, the native may have killed the machine
      cases hanswer : (native.reply call).answer with
      | failed =>
          have hworld : World w ((m.past offset (.withWord .call id)).hear id (native.reply call)) :=
            ((hs.past _).hear hnative).elim (·.world) (·.1)
          have hcode : KillCode.nativeFailure ∉ KillCode.faults := by decide
          exact .of_killed (hworld.of_eq rfl rfl rfl) rfl (by rintro ⟨⟩) fun hfault =>
            absurd hfault hcode
      | pending =>
          rcases hs.hear hnative with hheard | ⟨hworld, hflag, -, hasks⟩
          · exact hagain.onward le_rfl hfits ⟨hheard.frames, hheard.stack, hheard.saved, rfl,
              hheard.alive, hheard.world.of_eq rfl rfl rfl⟩
          · exact .of_killed (hworld.of_eq rfl rfl rfl) hflag (by rintro ⟨⟩) fun _ => hasks
      | done v =>
          rcases (hs.past (.withWord .call id)).hear hnative
            with hheard | ⟨hworld, hflag, hstate, hasks⟩
          · exact h.onward_push (Nat.le_succ n) hrest (hresult call v hanswer) hheard.withStack
          · refine .of_killed (hworld.of_eq rfl rfl rfl) hflag ?_ fun _ => hasks
            exact fun hfinished => by cases hstate.symm.trans hfinished

end Rules

end Machine

end TickScript
