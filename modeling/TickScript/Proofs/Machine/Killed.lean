import TickScript.Proofs.Machine.Lifetime
import TickScript.Proofs.OperandStack

/-!
# Killed machines

A machine is killed by its own instructions, by its host or from within a native. Each time the code
is noted and pushed as an int. `Machine.killed_shows_code` says what is left of that in every state in
which a machine is killed: the flag is set, ticks change nothing and runs report the code. Its int is
still on top, unless code outside has given a result to a machine that it had killed before. An int
has 32 bits and a code 64, so the int is the code only if that is short enough.

The invariant has to speak of machines that are flagged and not yet killed, because an instruction
goes on after a kill from outside: the flag is set, the code lies on the stack, and the state
changes only when the next tick notices. A result that is given in between would replace the code.
`discreet` in the history of a machine excludes this, and the part about the top of the stack is
stated under it.
-/

namespace TickScript.Machine

variable {p : Program} {discreet : Prop} {n : Nat} {m m' : Machine}

/-- A machine that was killed has its flag set and, if all are discreet, the code on top. -/
structure KillsShown (discreet : Prop) (m : Machine) : Prop where
  flagged : m.state = .killed → m.killFlag = true
  shown : discreet → m.killFlag = true →
    ∃ below, m.stack = OperandStack.push (.ofInt m.killCode.toInt) below

theorem killsShown_kill (m : Machine) (code : KillCode) : (m.kill code).KillsShown discreet :=
  ⟨fun _ => rfl, fun _ _ => ⟨m.stack, rfl⟩⟩

/-- As long as the flag is not set there is nothing to show. -/
theorem killsShown_of_alive (halive : m.killFlag = false) (hstate : m.state ≠ .killed) :
    m.KillsShown discreet := by
  constructor
  · intro hkilled
    exact absurd hkilled hstate
  · intro _ hflag
    rw [halive] at hflag
    cases hflag

/-- What shows a kill is the stack, the flag and the state. -/
theorem KillsShown.of_eq (h : m.KillsShown discreet) (hstack : m'.stack = m.stack)
    (hflag : m'.killFlag = m.killFlag) (hcode : m'.killCode = m.killCode)
    (hstate : m'.state = .killed → m.state = .killed ∨ m.killFlag = true) : m'.KillsShown discreet := by
  constructor
  · intro hkilled
    rw [hflag]
    exact (hstate hkilled).elim h.flagged id
  · intro hdiscreet hkilled
    rw [hstack, hcode]
    exact h.shown hdiscreet (hflag ▸ hkilled)

/-! ## Instructions -/

/-- A jump changes none of these. -/
theorem Ready.goto (h : m.Ready) (ip : Int) : (m.goto ip).Ready := by
  obtain ⟨frames, hgoto⟩ := exists_mapFrame_eq m fun f => { f with ip }
  rw [Machine.goto, hgoto]
  exact ⟨h.running, h.alive⟩

theorem Ready.killsShown (h : m.Ready) : m.KillsShown discreet :=
  killsShown_of_alive h.alive (by simp [h.running])

/-- An instruction that calls no native shows how it kills the machine. -/
theorem Outcome.killsShown {start : Int} {i : Instr} {next : Machine} (h : Outcome start i m next)
    (hready : m.Ready) (hnative : ∀ native arguments below, i.op = .call →
      ¬ m.CallsNative (i.word 0) native arguments below) : next.KillsShown discreet := by
  cases h with
  | changed hchange =>
      exact Ready.killsShown ⟨hchange.state.trans hready.running, hchange.killFlag.trans hready.alive⟩
  | failed _ _ => exact killsShown_kill _ _
  | killed _ => exact killsShown_kill _ _
  | jumped target _ =>
      obtain ⟨frames, hjump⟩ := exists_mapFrame_eq m fun f => { f with ip := target f.ip }
      rw [hjump]
      exact Ready.killsShown ⟨hready.running, hready.alive⟩
  | entered _ _ => exact Ready.killsShown ⟨hready.running, hready.alive⟩
  | answered hop hcalls => exact absurd hcalls (hnative _ _ _ hop)
  | returned stack result state _ _ hstate =>
      -- the machine goes on, or it was the last call that returned
      refine killsShown_of_alive hready.alive ?_
      rcases hstate with rfl | ⟨-, rfl⟩
      · simp [hready.running]
      · simp
  | stranded _ _ _ => exact killsShown_kill _ _

/-- A step that asks no native shows its kill: the code is pushed last. -/
theorem step_killsShown (hready : m.Ready)
    (hnative : ∀ id native arguments below past, ¬ m.AsksNative id native arguments below past)
    (hstep : m.step = .ok m') : m'.KillsShown discreet := by
  rcases step_cases m with hfails | ⟨ip, code, hkilled⟩ | ⟨i, ip, next, hread, hnext, houtcome⟩
  · rw [hfails] at hstep
    cases hstep
  · obtain rfl := Except.ok.inj (hkilled.symm.trans hstep)
    exact killsShown_kill _ _
  · obtain rfl := Except.ok.inj (hnext.symm.trans hstep)
    apply houtcome.killsShown (hready.goto ip)
    intro native arguments below hop hcalls
    exact hnative _ _ _ _ _ ⟨⟨i, hread, hop, rfl⟩, hcalls⟩

/-- The answer of a native hides no code, as long as it is no result for a killed machine. -/
theorem KillsShown.answer (h : m.KillsShown discreet) (start : Int) (below : OperandStack) (a : Answer)
    (ha : discreet → a.isDone = true → m.killFlag = false) : (m.answer start below a).KillsShown discreet := by
  cases a with
  | failed => exact killsShown_kill _ _
  | pending =>
      obtain ⟨frames, hmap⟩ := exists_mapFrame_eq m fun f => { f with ip := start }
      rw [Machine.answer, hmap]
      exact h.of_eq rfl rfl rfl (by simp)
  | done result =>
      refine ⟨h.flagged, ?_⟩
      intro hdiscreet hkilled
      -- the result covers whatever is below it
      have halive : m.killFlag = false := ha hdiscreet rfl
      exact absurd (halive.symm.trans hkilled) (by simp)

/-! ## All states -/

/-- By the history of the machine, discreet natives included. -/
theorem Occurs.killsShown (h : Occurs p discreet n m) : m.KillsShown discreet := by
  induction h with
  | new => exact killsShown_of_alive rfl (by simp [ofProgram])
  | equip _ _ _ _ _ _ ih => exact ih.of_eq rfl rfl rfl .inl
  | call _ hcall ih =>
      obtain ⟨stack, frames, rfl⟩ := exists_callId_eq hcall
      exact killsShown_of_alive rfl (by simp)
  | setField _ hset ih =>
      obtain ⟨id, old, -, rfl⟩ := exists_setField_eq hset
      exact ih.of_eq rfl rfl rfl .inl
  | kill code _ _ => exact killsShown_kill _ code
  | wake _ _ ih => exact ih.of_eq rfl rfl rfl (by simp)
  | halt _ _ hflag ih => exact ih.of_eq rfl rfl rfl fun _ => .inr hflag
  | step _ hready hnative hstep _ => exact step_killsShown hready hnative hstep
  | enter _ hready hasks _ =>
      obtain ⟨ip, rfl⟩ := hasks.exists_goto
      exact (hready.goto ip).killsShown
  | answer start below a _ ha ih => exact ih.answer start below a ha
  | ask _ hready hasks _ =>
      obtain ⟨i, behind, below, hread, -, -, rfl⟩ := hasks.read
      obtain ⟨ip, rfl⟩ := exists_goto_of_read hread
      exact Ready.killsShown ⟨(hready.goto ip).running, (hready.goto ip).alive⟩
  | grant attached v _ ha ih =>
      refine ⟨ih.flagged, ?_⟩
      intro hdiscreet hkilled
      exact absurd ((ha hdiscreet).symm.trans hkilled) (by simp)

/-- A killed machine stays as it is. -/
theorem tick_of_killed (h : m.state = .killed) : m.tick = .ok m := by
  rw [tick, h]
  rfl

/-- A killed machine reports its code as often as it is run. -/
theorem run_of_killed (h : m.state = .killed) (patience : Nat) :
    m.run (patience + 1) = .ok (.error (.killed m.killCode), m) := by
  simp only [run, tick_of_killed h, bind, Except.bind, h]
  rfl

/-- What a kill leaves on the stack can be taken from it again. -/
theorem pop?_push_code (code : KillCode) (below : OperandStack) :
    OperandStack.pop? (OperandStack.push (.ofInt code.toInt) below) = some (.ofInt code.toInt, below) :=
  OperandStack.pop?_push_poppable ⟨rfl, by simp [Value.ofInt, OperandStack.maxValueSize]⟩ below

/-- In every state in which a machine is killed its flag is set, a tick leaves it as it is, and a run
reports the code. If no code outside gave a result to the machine after a kill, an int is on top of
the stack: the low 32 bits of the code, which are the code if it has no more than these. -/
theorem killed_shows_code (h : Occurs p discreet n m) (hkilled : m.state = .killed) :
    m.killFlag = true
    ∧ m.tick = .ok m
    ∧ (∀ patience, m.run (patience + 1) = .ok (.error (.killed m.killCode), m))
    ∧ (discreet → ∃ v below, m.stack.pop? = some (v, below) ∧ v.type = .int
      ∧ v.toInt = Int.bmod m.killCode.toInt (2 ^ 32)
      ∧ (v.toInt = m.killCode.toInt ↔ -2 ^ 31 ≤ m.killCode.toInt ∧ m.killCode.toInt < 2 ^ 31)) := by
  have hshown := h.killsShown
  have hflag := hshown.flagged hkilled
  refine ⟨hflag, tick_of_killed hkilled, run_of_killed hkilled, ?_⟩
  intro hdiscreet
  obtain ⟨below, hstack⟩ := hshown.shown hdiscreet hflag
  refine ⟨.ofInt m.killCode.toInt, below, ?_, rfl, Value.toInt_ofInt _, Value.toInt_ofInt_eq_iff _⟩
  rw [hstack]
  exact pop?_push_code m.killCode below

/-- A machine whose one function calls a native that kills it and is not done. -/
def poisoned : Machine :=
  { ofProgram { functions := [(1, ⟨0, .void, (Instr.withWord .call 9).encode⟩)] } with
    natives := [(9, ⟨0, fun _ => { answer := .pending, kill? := some 5 }⟩)] }

/-- The machine `poisoned` once its function was called. -/
def poisonedStarted : Machine :=
  { poisoned with
    frames := [{ id := 1, function := ⟨0, .void, (Instr.withWord .call 9).encode⟩ }]
    state := .running }

/-- The first tick reaches the native; the second one notices that the machine is killed. -/
def poisonedAfter (ticks : UInt64) (state : MachineState) : Machine :=
  { poisonedStarted with
    nativeCalls := [(9, 1)]
    stack := OperandStack.push (.ofInt 5) []
    killFlag := true
    killCode := 5
    ticks, state }

theorem poisonedAfter_shows_code : (∃ v below,
      (poisonedAfter 2 .killed).stack.pop? = some (v, below) ∧ v.type = .int ∧ v.toInt = 5)
    ∧ (poisonedAfter 2 .killed).run 1 = .ok (.error (.killed 5), poisonedAfter 2 .killed) := by
  have hnatives (m : Machine) (h : m.natives = poisoned.natives) : m.Behaved True := by
    intro _ id native hget
    rw [h] at hget
    obtain ⟨-, rfl⟩ := Prod.mk.inj (List.mem_singleton.1 (Table.get?_mem hget))
    intro call hdone
    cases hdone
  have hstart : poisoned.callId 1 [] = .ok poisonedStarted := rfl
  have hfirst : poisonedStarted.tick = .ok (poisonedAfter 1 .waiting) := rfl
  have hsecond : (poisonedAfter 1 .waiting).tick = .ok (poisonedAfter 2 .killed) := rfl
  have hoccurs : Occurs poisoned.program True 0 (poisonedAfter 2 .killed) := by
    have hnew : Occurs poisoned.program True 0 poisoned := .equip _ _ _ _ _ .new
    exact ((hnew.call hstart).tick (hnatives _ rfl) hfirst).tick (hnatives _ rfl) hsecond
  obtain ⟨-, -, hrun, hshown⟩ := killed_shows_code hoccurs rfl
  obtain ⟨v, below, hpop, htype, -, hcode⟩ := hshown trivial
  exact ⟨⟨v, below, hpop, htype, hcode.2 (by decide)⟩, hrun 0⟩

/-- A code of more than 32 bits is not what is shown. -/
theorem long_code_not_shown : ¬ ∀ (p : Program) (n : Nat) (m : Machine), Occurs p True n m →
    m.state = .killed → m.killFlag = true
      ∧ (∃ v below, m.stack.pop? = some (v, below) ∧ v.type = .int ∧ v.toInt = m.killCode.toInt)
      ∧ m.tick = .ok m
      ∧ ∀ patience, m.run (patience + 1) = .ok (.error (.killed m.killCode), m) := by
  intro h
  obtain ⟨-, ⟨v, below, hpop, -, hcode⟩, -⟩ := h {} 0 ((ofProgram {}).kill 0x100000000)
    (.kill _ .new) rfl
  have htop := pop?_push_code 0x100000000 []
  obtain ⟨rfl, -⟩ := Prod.mk.inj (Option.some.inj (htop.symm.trans hpop))
  have hshort := (Value.toInt_ofInt_eq_iff _).1 hcode
  exact absurd hshort (by decide)

end TickScript.Machine
