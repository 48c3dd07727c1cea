import TickScript.Proofs.Codegen.Lifetimes
import TickScript.Proofs.Machine.Globals
import TickScript.Proofs.Machine.Instruction
import TickScript.Proofs.Machine.Totality

/-!
# The local variables of active calls

`Machine.Arises p m` are the machines that come about from a new machine of a program when natives are
functions of their calls: the host may do anything between two instructions. A function is charted when
its code is annotated and flows. In every machine that arises and is not told to stop, each active call
of a charted function stands at an instruction and has exactly the local variables that are alive
there (`Machine.Arises.follows`).

One step changes the variables of the innermost call in few ways. Most instructions are tame: they may
change the values of variables, but not which there are.

The variables are those of a call, so an instruction of another call cannot change them. The proof
therefore splits on whether the innermost call is one of the charted function. If it is not, nothing
has to be known about its code; if it is, the instruction is one of the annotated code and leads to
the set of the next place by the flow of the chart.

A machine that has been told to stop is left out: the instruction that kills a machine may be half
done, and no further one is carried out.
-/

namespace TickScript

namespace Machine

/-! ## Tame instructions -/

/-- Between two machines only the values of the innermost call's variables have changed in the calls. -/
def SameLocals (m m' : Machine) : Prop :=
  ∃ locals : Table Id Value, (∀ id, locals.has id = m.locals.has id)
    ∧ m'.frames = (m.mapFrame fun f => { f with locals }).frames

/-- The locals are part of the innermost frame. -/
theorem SameLocals.of_frames {m m' : Machine} (h : m'.frames = m.frames) : m.SameLocals m' := by
  refine ⟨m.locals, fun _ => rfl, ?_⟩
  rw [h, frames_mapFrame]
  cases hframes : m.frames with
  | nil => rfl
  | cons f rest => simp [locals, hframes]

theorem SameLocals.locals_has {m m' : Machine} (h : m.SameLocals m') (id : Id) :
    m'.locals.has id = m.locals.has id := by
  obtain ⟨locals, hhas, hframes⟩ := h
  rw [frames_mapFrame] at hframes
  cases hcalls : m.frames with
  | nil =>
      rw [hcalls] at hframes
      simp [Machine.locals, hframes, hcalls]
  | cons f rest =>
      rw [hcalls] at hframes
      rw [← hhas]
      simp [Machine.locals, hframes]

/-- Frames that stay as they are over two stretches stay so over both. -/
theorem SameLocals.trans {m m' m'' : Machine} (h : m.SameLocals m') (h' : m'.SameLocals m'') :
    m.SameLocals m'' := by
  obtain ⟨locals', hhas', hframes'⟩ := id h'
  refine ⟨locals', fun id => (hhas' id).trans (h.locals_has id), ?_⟩
  obtain ⟨locals, -, hframes⟩ := h
  rw [frames_mapFrame] at hframes hframes' ⊢
  rw [hframes', hframes]
  cases m.frames <;> rfl

/-- A variable is written in the place where it was found. -/
theorem sameLocals_assign (m : Machine) (id : Id) (v : Value) : m.SameLocals (m.assign id v) := by
  rw [assign]
  split
  · next hlocal =>
      refine ⟨m.locals.set id v, ?_, ?_⟩
      · intro other
        rw [Bool.eq_iff_iff, Table.has_set]
        constructor
        · rintro (rfl | h)
          · exact hlocal
          · exact h
        · exact .inr
      · rw [frames_mapFrame, frames_mapFrame]
        cases hframes : m.frames with
        | nil => rfl
        | cons f rest => simp [locals, hframes]
  · exact .of_frames rfl

end Machine

namespace Exec

open Machine

variable {α β : Type}

/-- A part of an instruction that, if it goes on, makes and drops no variable. -/
def Tame (x : Exec α) : Prop := ∀ (m : Machine) (a : α) (m' : Machine), x m = .ok a m' → m.SameLocals m'

theorem tame_pure (a : α) : Tame (pure a : Exec α) := by
  rintro m _ _ ⟨⟩
  exact .of_frames rfl

/-- Tame actions are tame one behind the other, failing ones included. -/
theorem tame_bind {x : Exec α} {f : α → Exec β} (hx : Tame x) (hf : ∀ a, Tame (f a)) :
    Tame (x >>= f) := by
  intro m b m'' h
  rw [run_bind] at h
  cases hrun : x m with
  | error stop m' => simp [hrun] at h
  | ok a m' =>
      rw [hrun] at h
      exact (hx m a m' hrun).trans (hf a m' b m'' h)

/-- Whatever leaves the frames alone is tame. -/
theorem tame_modify {f : Machine → Machine} (hf : ∀ m, (f m).frames = m.frames) :
    Tame (modify f : Exec PUnit) := by
  rintro m _ _ ⟨⟩
  exact .of_frames (hf m)

theorem tame_push (v : Value) : Tame (push v) := tame_modify fun _ => rfl

theorem tame_kill (code : KillCode) : Tame (kill code : Exec α) := by
  rintro m a m' ⟨⟩

theorem tame_pop : Tame pop := by
  intro m v m' h
  rw [run_pop] at h
  split at h
  · cases h
  · cases h
    exact .of_frames rfl

theorem tame_popCompare : Tame popCompare := by
  intro m cv m' h
  rw [run_popCompare] at h
  split at h
  · cases h
  · cases h
    exact .of_frames rfl

theorem tame_pushVariable (id : Id) : Tame (pushVariable id) := by
  intro m a m' h
  rw [run_pushVariable] at h
  split_ifs at h
  · cases h
    exact .of_frames rfl
  · cases h
    exact .of_frames rfl
  · split at h
    · cases h
    · cases h
      exact .of_frames rfl

theorem tame_update (id : Id) (f : Value → Value) : Tame (update id f) := by
  intro m a m' h
  rw [run_update] at h
  split at h
  · cases h
  · cases h
    exact sameLocals_assign m id _

theorem tame_arithmetic (op : BinaryOp) : Tame (arithmetic op) := by
  refine tame_bind tame_pop fun b => tame_bind tame_pop fun a => ?_
  split
  · exact tame_kill _
  · exact tame_push _

theorem tame_instantiate : Tame instantiate := by
  intro m a m' h
  rw [run_instantiate] at h
  split at h
  · cases h
  · split at h
    · cases h
      exact .of_frames rfl
    · cases h
      exact .of_frames rfl

theorem tame_withObject (ask : Handle → Host → Except HostError Host)
    (attached : Handle → Handle → Handle) : Tame (withObject ask attached) := by
  intro m a m' h
  rw [run_withObject] at h
  split at h
  · cases h
  · split at h
    · cases h
      exact .of_frames rfl
    · cases h
      exact .of_frames rfl

/-- Quiet instructions other than calls make and drop no variable. -/
theorem tame_act (start : Int) (i : Instr) (hquiet : i.op.isQuiet = true) (hcall : i.op ≠ .call) :
    Tame (act start i) := by
  obtain ⟨op, operands, data⟩ := i
  cases op
  case jump | jumpBy | jumpIf | jumpIfBy | ret | allocate | free => cases hquiet
  case call => exact absurd rfl hcall
  case pushVar => exact tame_pushVariable _
  case popVar => exact tame_bind tame_pop fun _ => tame_update _ _
  case set => exact tame_update _ _
  case mod | div | mul | sub | add | and | or | xor | shiftLeft | shiftRight =>
    exact tame_arithmetic _
  case compare =>
    exact tame_bind tame_pop fun _ => tame_bind tame_pop fun _ => tame_modify fun _ => rfl
  case combine => exact tame_bind tame_popCompare fun _ => tame_modify fun _ => rfl
  case restoreCompare => exact tame_bind tame_popCompare fun _ => tame_modify fun _ => rfl
  case pop => exact tame_bind tame_pop fun _ => tame_pure _
  case pushCompare => exact fun m => tame_push _ m
  case instantiate => exact tame_instantiate
  case delete | attach | detach =>
    simp only [act, execute]
    exact tame_withObject _ _
  case kill => exact tame_kill _
  case nop => exact tame_pure _
  all_goals exact tame_modify fun _ => rfl

end Exec

open Gen Annotated

/-- Code that starts at an instruction stands there in the bytes. -/
theorem Gen.Annotated.LivesAt.placed {A : Annotated} {behind alive : Set Id} {offset : Nat}
    {here : Code} (h : LivesAt A behind offset alive here) (hencodable : ∀ i ∈ A.code, i.Encodable) :
    Placed (Instr.encodeAll A.code) offset here := by
  obtain ⟨before, after, rfl, hoffset, -, rest, hrest⟩ := h
  have hwhole := Placed.whole hencodable
  rw [code_append, ← hrest] at hwhole
  have hhere := hwhole.right.left
  rwa [Nat.zero_add, Int.ofNat_inj.mp hoffset, hrest, ← code_append] at hhere

/-! ## Charts -/

/-- A function, its annotated code and what is alive behind it. -/
structure Chart where
  /-- The id of the function. -/
  id : Id
  /-- The function as it is loaded. -/
  function : FunctionBody
  /-- Its code, each instruction with the variables alive in front of it. -/
  annotated : Annotated
  /-- The variables alive behind the last instruction. -/
  behind : Set Id

/-- An instruction of the code, or its end, stands at an address, and the variables that are alive
there are the given ones. -/
def Chart.Fits (c : Chart) (ip : Int) (locals : Table Id Value) : Prop :=
  ∃ alive, c.annotated.LivesAt c.behind ip alive [] ∧ ∀ id, locals.has id = true ↔ id ∈ alive

/-- A call of the charted function runs its code, with the variables that are alive. -/
def Frame.Follows (f : Frame) (c : Chart) : Prop :=
  f.id = c.id → f.function = c.function ∧ c.Fits f.ip f.locals

/-- A program has the charted function, whose code flows and starts without variables. -/
structure Chart.Describes (c : Chart) (p : Program) : Prop where
  /-- The program has the function. -/
  loaded : p.functions.get? c.id = some c.function
  /-- Its bytes are those of the annotated code. -/
  code : c.function.code = Instr.encodeAll c.annotated.code
  /-- Which can be read back. -/
  encodable : ∀ i ∈ c.annotated.code, i.Encodable
  /-- And addressed. -/
  short : c.function.code.length < 2 ^ 63
  /-- No variable is alive at its start. -/
  entry : entry c.behind c.annotated = ∅
  /-- What is annotated is what the instructions leave. -/
  flows : c.annotated.Flows c.behind

/-- A call begins at the first instruction, without variables. -/
theorem Chart.Describes.begins {c : Chart} {p : Program} {f : Frame} (h : c.Describes p)
    (hip : f.ip = 0) (hlocals : f.locals = [])
    (hfunction : p.functions.get? f.id = some f.function) : f.Follows c := by
  intro hid
  rw [hid, h.loaded] at hfunction
  refine ⟨(Option.some.inj hfunction).symm, ∅, ?_, ?_⟩
  · rw [hip]
    exact ⟨[], c.annotated, rfl, rfl, h.entry, List.nil_prefix⟩
  · intro other
    simp [hlocals, Table.has]

namespace Machine

/-- The calls of the charted function follow the chart. -/
def Follows (m : Machine) (c : Chart) : Prop := ∀ f ∈ m.frames, f.Follows c

variable {p : Program} {c : Chart} {m m' : Machine} {f : Frame} {rest : List Frame}

/-- A machine follows the code if each of its frames does. -/
theorem follows_of_frames {g : Frame} (h : m.frames = g :: rest) (hg : g.Follows c)
    (hrest : ∀ f ∈ rest, f.Follows c) : m.Follows c := by
  rw [Follows, h]
  exact List.forall_mem_cons.mpr ⟨hg, hrest⟩

/-- And each frame of such a machine does. -/
theorem Follows.split (hm : m.Follows c) (h : m.frames = f :: rest) :
    f.Follows c ∧ ∀ g ∈ rest, g.Follows c := by
  rw [Follows, h] at hm
  exact List.forall_mem_cons.mp hm

/-! ## What a step does to the calls -/

/-- What became of the calls: the innermost one is as good as before, or has ended, or has made a
call. -/
theorem Outcome.frames_cases {start : Int} {i : Instr} {next : Machine} (h : Outcome start i m next)
    (hframes : m.frames = f :: rest) : next.killFlag = true
      ∨ (∃ g, next.frames = g :: rest ∧ g.id = f.id) ∨ next.frames = rest
      ∨ ∃ g, next.frames = g :: f :: rest ∧ g.ip = 0 ∧ g.locals = []
        ∧ m.program.functions.get? g.id = some g.function := by
  cases h with
  -- the innermost call has other locals at most
  | changed hchange =>
      obtain ⟨locals, hnext⟩ := hchange.frames
      rw [frames_mapFrame, hframes] at hnext
      exact .inr (.inl ⟨_, hnext, rfl⟩)
  | failed _ _ => exact .inl rfl
  | killed _ => exact .inl rfl
  | jumped target _ =>
      refine .inr (.inl ⟨{ f with ip := target f.ip }, ?_, rfl⟩)
      rw [frames_mapFrame, hframes]
  -- the new call begins at the start without variables
  | @entered function _ hfunction =>
      refine .inr (.inr (.inr ⟨⟨i.word 0, function, 0, m.savedCompares.length, []⟩, ?_, rfl,
        rfl, hfunction⟩))
      rw [← hframes]
  | @answered native arguments below _ _ =>
      generalize Exec.replyTo native (i.word 0) arguments m = reply
      cases reply.answer with
      | failed => exact .inl rfl
      | done result => exact .inr (.inl ⟨f, (hear_frames _ _ _).trans hframes, rfl⟩)
      -- a native that is not done is asked again: the call goes back to the instruction
      | pending =>
          refine .inr (.inl ⟨{ f with ip := start }, ?_, rfl⟩)
          show ((m.hear (i.word 0) reply).mapFrame _).frames = _
          rw [frames_mapFrame, hear_frames, hframes]
  | returned _ _ _ _ hcalls _ =>
      rw [hframes] at hcalls
      obtain ⟨-, rfl⟩ := List.cons.inj hcalls
      exact .inr (.inr (.inl rfl))
  | stranded _ _ _ => exact .inl rfl

/-- A call leads into a function, kills the machine, or comes back to the innermost call, which stands
behind the instruction or before it. -/
theorem settle_call_cases (start : Int) (callee : Id) (m : Machine) :
    ∃ next, settle (Exec.call start callee m) = .ok next ∧ (next.killFlag = true
      ∨ (∃ g, next.frames = g :: m.frames ∧ g.ip = 0 ∧ g.locals = []
        ∧ m.program.functions.get? g.id = some g.function)
      ∨ next.frames = m.frames ∨ next.frames = (m.goto start).frames) := by
  cases hfunction : m.program.functions.get? callee with
  -- functions of the program come first
  | some function =>
      let g : Frame := ⟨callee, function, 0, m.savedCompares.length, []⟩
      refine ⟨{ m with frames := g :: m.frames }, ?_, .inr (.inl ⟨g, rfl, rfl, rfl, hfunction⟩)⟩
      rw [Exec.run_call, hfunction]
      rfl
  | none =>
      cases hnative : m.natives.get? callee with
      -- neither a function nor a native
      | none =>
          refine ⟨m.kill .undefinedFunction, ?_, .inl rfl⟩
          simp only [Exec.run_call, hfunction, hnative]
          rfl
      | some native =>
          cases hpop : m.stack.popMany? native.arity with
          | none =>
              refine ⟨m.kill .stackUnderflow, ?_, .inl rfl⟩
              simp only [Exec.run_call, hfunction, hnative, hpop]
              rfl
          | some taken =>
              -- a native answers, fails, or is to be asked again
              refine ⟨_, settle_call_native ⟨hfunction, hnative, hpop⟩ start, ?_⟩
              generalize Exec.replyTo native callee taken.1 m = reply
              cases reply.answer with
              | failed => exact .inl rfl
              | done result => exact .inr (.inr (.inl (hear_frames _ _ _)))
              | pending =>
                  refine .inr (.inr (.inr ?_))
                  show ((m.hear callee reply).mapFrame _).frames = (m.mapFrame _).frames
                  rw [frames_mapFrame, frames_mapFrame, hear_frames]

/-! ## Steps of other calls -/

/-- Where a foreign call is the innermost one, the others stay as they are, and a new one begins. -/
theorem follows_step_foreign (hc : c.Describes m.program) (hm : m.Follows c)
    (hframes : m.frames = f :: rest) (hforeign : f.id ≠ c.id) (hstep : m.step = .ok m') :
    m'.killFlag = true ∨ m'.Follows c := by
  obtain ⟨hf, hrest⟩ := hm.split hframes
  rcases step_cases m with hfails | ⟨ip, code, hkilled⟩ | ⟨i, ip, next, -, hnext, houtcome⟩
  · rw [hfails] at hstep
    cases hstep
  · obtain rfl := Except.ok.inj (hkilled.symm.trans hstep)
    exact .inl rfl
  · obtain rfl := Except.ok.inj (hnext.symm.trans hstep)
    have hmoved : (m.goto ip).frames = { f with ip } :: rest := by rw [goto_eq hframes]
    rcases houtcome.frames_cases hmoved with
      hkill | ⟨g, hg, hsame⟩ | hreturned | ⟨g, hg, hip, hlocals, hfunction⟩
    · exact .inl hkill
    · right
      apply follows_of_frames hg _ hrest
      intro hid
      exact absurd (hsame.symm.trans hid) hforeign
    · right
      rw [Follows, hreturned]
      exact hrest
    · right
      rw [goto_program] at hfunction
      apply follows_of_frames hg (hc.begins hip hlocals hfunction)
      refine List.forall_mem_cons.mpr ⟨?_, hrest⟩
      intro hid
      exact absurd hid hforeign

/-! ## Steps of the charted function -/

/-- The innermost call runs the charted function and has just read an instruction. -/
structure Taking (c : Chart) (past : Machine) (f : Frame) (rest : List Frame)
    (before after : Annotated) (alive : Set Id) (i : Instr) : Prop where
  /-- The program has the charted function. -/
  describes : c.Describes past.program
  /-- The innermost call is `f`. -/
  frames : past.frames = f :: rest
  /-- It runs the charted function. -/
  function : f.function = c.function
  /-- The instruction is one of the annotated code. -/
  split : c.annotated = before ++ (alive, i) :: after
  /-- The call has moved behind it. -/
  ip : f.ip = Instr.sizeAll before.code + i.size
  /-- Its variables are those that are alive at the instruction. -/
  locals : ∀ id, f.locals.has id = true ↔ id ∈ alive
  /-- The calls further out follow the chart as well. -/
  callers : ∀ g ∈ rest, g.Follows c

section

variable {past : Machine} {before after : Annotated} {alive : Set Id} {i : Instr}

/-- Behind an instruction that goes on, the variables that it leaves are alive. -/
theorem Taking.fits_next (h : Taking c past f rest before after alive i) (hgoes : i.op.goesOn = true)
    {locals : Table Id Value} (hlocals : ∀ id, locals.has id = true ↔ id ∈ i.survivors alive) :
    c.Fits f.ip locals := by
  refine ⟨i.survivors alive, ?_, hlocals⟩
  rw [h.ip]
  exact h.describes.flows.next h.split hgoes

/-- An instruction that goes on and leaves the variables alone is passed. -/
theorem Taking.passes (h : Taking c past f rest before after alive i) (hgoes : i.op.goesOn = true)
    (hsame : i.survivors alive = alive) : f.Follows c := by
  intro _
  refine ⟨h.function, h.fits_next hgoes ?_⟩
  rw [hsame]
  exact h.locals

/-- A call begins or comes back behind the instruction; a native that is not done is called again. -/
theorem Taking.follows_call (h : Taking c past f rest before after alive i) (hop : i.op = .call)
    (hact : settle (Exec.act (Instr.sizeAll before.code) i past) = .ok m') :
    m'.killFlag = true ∨ m'.Follows c := by
  have hbehind : f.Follows c :=
    h.passes (by rw [hop]; rfl) (Instr.survivors_of_isQuiet (by rw [hop]; rfl) alive)
  obtain ⟨next, hnext, hcases⟩ := settle_call_cases (Instr.sizeAll before.code) (i.word 0) past
  have heq : Exec.act (Instr.sizeAll before.code) i
      = Exec.call (Instr.sizeAll before.code) (i.word 0) := by simp only [Exec.act, hop]
  rw [heq, hnext] at hact
  obtain rfl := Except.ok.inj hact
  rcases hcases with hkill | ⟨g, hg, hstart, hnone, hentered⟩ | hsame | hagain
  · exact .inl hkill
  · right
    rw [h.frames] at hg
    exact follows_of_frames hg (h.describes.begins hstart hnone hentered)
      (List.forall_mem_cons.mpr ⟨hbehind, h.callers⟩)
  · exact .inr (follows_of_frames (hsame.trans h.frames) hbehind h.callers)
  · right
    rw [goto_eq h.frames] at hagain
    apply follows_of_frames hagain _ h.callers
    intro _
    exact ⟨h.function, alive, ⟨before, _, h.split, rfl, rfl, List.nil_prefix⟩, h.locals⟩

/-- A return uncovers a caller that has been following the code all along. -/
theorem Taking.follows_ret (h : Taking c past f rest before after alive i) (hop : i.op = .ret)
    (hact : settle (Exec.act (Instr.sizeAll before.code) i past) = .ok m') :
    m'.killFlag = true ∨ m'.Follows c := by
  have heq : Exec.act (Instr.sizeAll before.code) i = Exec.ret := by
    simp only [Exec.act, hop, Exec.execute]
  rw [heq] at hact
  rcases settle_ret h.frames with ⟨stack, result, state, hreturns, -⟩ | ⟨stack, hstranded⟩
  · obtain rfl := Except.ok.inj (hreturns.symm.trans hact)
    exact .inr h.callers
  · obtain rfl := Except.ok.inj (hstranded.symm.trans hact)
    exact .inl rfl

/-- An allocation adds the variable that the next instruction has alive. -/
theorem Taking.follows_allocate (h : Taking c past f rest before after alive i)
    (hop : i.op = .allocate)
    (hact : settle (Exec.act (Instr.sizeAll before.code) i past) = .ok m') : m'.Follows c := by
  simp only [Exec.act, hop, Exec.run_modify, settle] at hact
  obtain rfl := Except.ok.inj hact
  apply follows_of_frames (g := { f with locals := f.locals.set (i.word 2) _ })
    (by rw [allocate, frames_mapFrame, h.frames]) _ h.callers
  intro _
  refine ⟨h.function, h.fits_next (by rw [hop]; rfl) fun other => ?_⟩
  have hmade : i.survivors alive = insert (i.word 2) alive := if_pos hop
  rw [hmade, Table.has_set, h.locals, Set.mem_insert_iff]

/-- Freeing takes away the one that it no longer has. -/
theorem Taking.follows_free (h : Taking c past f rest before after alive i) (hop : i.op = .free)
    (hact : settle (Exec.act (Instr.sizeAll before.code) i past) = .ok m') : m'.Follows c := by
  simp only [Exec.act, hop, Exec.run_modify, settle] at hact
  obtain rfl := Except.ok.inj hact
  apply follows_of_frames (g := { f with locals := f.locals.erase (i.word 0) })
    (by rw [free, frames_mapFrame, h.frames]) _ h.callers
  intro _
  refine ⟨h.function, h.fits_next (by rw [hop]; rfl) fun other => ?_⟩
  have hdropped : i.survivors alive = alive \ {i.word 0} := by
    rw [Instr.survivors, if_neg (by rw [hop]; decide), if_pos hop]
  rw [hdropped, Table.has_erase, h.locals, Set.mem_sdiff, Set.mem_singleton_iff, and_comm]

/-- A jump leads to where the same variables are alive, whether it is taken or not. -/
theorem Taking.follows_jump (h : Taking c past f rest before after alive i)
    (hop : i.op.isJump = true)
    (hact : settle (Exec.act (Instr.sizeAll before.code) i past) = .ok m') : m'.Follows c := by
  obtain ⟨hrel, hlives⟩ := h.describes.flows.jump h.split hop
  have htaken : (past.mapFrame fun f => { f with ip := f.ip + (i.word 0).toInt }).Follows c := by
    apply follows_of_frames (g := { f with ip := f.ip + (i.word 0).toInt })
      (by rw [frames_mapFrame, h.frames]) _ h.callers
    intro _
    have htarget : i.target (Instr.sizeAll before.code) = f.ip + (i.word 0).toInt := by
      rw [Instr.target, if_pos hrel, h.ip, Instr.word, List.head?_eq_getElem?]
    rw [htarget] at hlives
    exact ⟨h.function, alive, hlives, h.locals⟩
  generalize hname : i.op = op at hrel
  cases op
  case jumpBy =>
    simp only [Exec.act, hname, Exec.jump, Exec.run_modify, settle] at hact
    obtain rfl := Except.ok.inj hact
    exact htaken
  case jumpIfBy =>
    simp only [Exec.act, hname, Exec.jump, Exec.run_modify, settle] at hact
    obtain rfl := Except.ok.inj hact
    split
    · exact htaken
    · have hsame : i.survivors alive = alive := by
        rw [Instr.survivors, if_neg (by rw [hname]; decide), if_neg (by rw [hname]; decide)]
      exact follows_of_frames h.frames (h.passes (by rw [hname]; rfl) hsame) h.callers
  all_goals cases hrel

/-- A quiet instruction that does not go on kills the machine. -/
theorem killFlag_of_error {start : Int} {i : Instr} {past next : Machine} {stop : Stop}
    (hquiet : i.op.isQuiet = true) (hcall : i.op ≠ .call)
    (hrun : Exec.act start i past = .error stop next)
    (hact : settle (Exec.act start i past) = .ok m') : m'.killFlag = true := by
  rw [hrun] at hact
  by_cases hkill : i.op = .kill
  · simp only [Exec.act, hkill] at hrun
    cases hrun
    obtain rfl := Except.ok.inj hact
    rfl
  · have hordinary : i.op.isOrdinary = true := by
      simp only [Opcode.isQuiet, Bool.not_eq_true', Bool.or_eq_false_iff] at hquiet
      simp [Opcode.isOrdinary, hquiet, hcall, hkill]
    have hleaves := Exec.ordinary_act start i hordinary past
    rw [hrun] at hleaves
    obtain ⟨rfl, x, code, -, -, rfl⟩ := hleaves
    obtain rfl := Except.ok.inj hact
    rfl

/-- A quiet instruction keeps the locals and leads on to the next one. -/
theorem Taking.follows_quiet (h : Taking c past f rest before after alive i)
    (hquiet : i.op.isQuiet = true) (hcall : i.op ≠ .call)
    (hact : settle (Exec.act (Instr.sizeAll before.code) i past) = .ok m') :
    m'.killFlag = true ∨ m'.Follows c := by
  cases hrun : Exec.act (Instr.sizeAll before.code) i past with
  | error stop next => exact .inl (killFlag_of_error hquiet hcall hrun hact)
  | ok a next =>
      right
      rw [hrun] at hact
      obtain rfl := Except.ok.inj hact
      have hstays : i.op ≠ .kill := by
        intro hkill
        simp only [Exec.act, hkill] at hrun
        cases hrun
      obtain ⟨locals, hhas, hframes⟩ := Exec.tame_act _ i hquiet hcall past a next hrun
      rw [frames_mapFrame, h.frames] at hframes
      apply follows_of_frames hframes _ h.callers
      intro _
      refine ⟨h.function, h.fits_next (Opcode.goesOn_of_isQuiet hquiet hstays) fun other => ?_⟩
      rw [Instr.survivors_of_isQuiet hquiet, hhas, Machine.locals, h.frames]
      exact h.locals other

/-- Where an instruction of a charted function is carried out, its call goes on with the variables
that are alive where it then stands. -/
theorem Taking.follows_act (h : Taking c past f rest before after alive i)
    (hact : settle (Exec.act (Instr.sizeAll before.code) i past) = .ok m') :
    m'.killFlag = true ∨ m'.Follows c := by
  by_cases hcall : i.op = .call
  · exact h.follows_call hcall hact
  by_cases hret : i.op = .ret
  · exact h.follows_ret hret hact
  by_cases hallocate : i.op = .allocate
  · exact .inr (h.follows_allocate hallocate hact)
  by_cases hfree : i.op = .free
  · exact .inr (h.follows_free hfree hact)
  by_cases hjump : i.op.isJump = true
  · exact .inr (h.follows_jump hjump hact)
  · have hquiet : i.op.isQuiet = true := by
      simp [Opcode.isQuiet, hjump, hret, hallocate, hfree]
    exact h.follows_quiet hquiet hcall hact

end

/-- Nothing can be read behind the last byte. -/
theorem not_read_end {code : Text} (h : m.Stands code code.length) (i : Instr) (past : Machine) :
    Exec.read m ≠ .ok i past := by
  intro hread
  by_cases haddr : code.length = 2 ^ 63 - 1
  · obtain ⟨f, rest, hframes, hip, rfl⟩ := h
    have hlast : m.frames.head?.map (·.ip) = some 0x7FFFFFFFFFFFFFFF := by
      rw [hframes, List.head?_cons, Option.map_some, hip, haddr]
      rfl
    simp only [Exec.read, Exec.fetchOpcode, Exec.run_bind, Exec.run_get, hlast, if_true,
      Exec.run_throw] at hread
    cases hread
  · rw [Exec.read_eq h haddr, List.drop_length] at hread
    cases hread

/-- Where a call of the charted function is the innermost one, it goes on as the chart says. -/
theorem follows_step_own (hc : c.Describes m.program) (hm : m.Follows c)
    (hframes : m.frames = f :: rest) (hid : f.id = c.id) (hstep : m.step = .ok m') :
    m'.killFlag = true ∨ m'.Follows c := by
  obtain ⟨hf, hrest⟩ := hm.split hframes
  obtain ⟨hfunction, alive, ⟨before, after, hsplit, hip, hentry, -⟩, hlocals⟩ := hf hid
  have hcode : f.function.code = Instr.encodeAll c.annotated.code := by rw [hfunction, hc.code]
  cases after with
  | nil =>
      -- the call stands behind its last instruction, where nothing can be read
      left
      have hend : m.Stands f.function.code f.function.code.length := by
        refine ⟨f, rest, hframes, ?_, rfl⟩
        rw [← hip, hcode, Instr.length_encodeAll hc.encodable, hsplit, List.append_nil]
      rcases step_cases m with hfails | ⟨ip, code, hkilled⟩ | ⟨i, ip, next, hread, -⟩
      · rw [hfails] at hstep
        cases hstep
      · obtain rfl := Except.ok.inj (hkilled.symm.trans hstep)
        rfl
      · exact absurd hread (not_read_end hend i _)
  | cons first after =>
      obtain ⟨alive, i⟩ := first
      obtain rfl : alive = _ := hentry
      -- the instruction stands at the place of the call, so it is the one that is taken
      have hplaced : Placed f.function.code (Instr.sizeAll before.code) [i] := by
        have hlives : c.annotated.LivesAt c.behind (Instr.sizeAll before.code : Nat) _ [i] :=
          ⟨before, _, hsplit, rfl, rfl, code after, rfl⟩
        rw [hcode]
        exact hlives.placed hc.encodable
      have hnext : m.Next (Instr.sizeAll before.code) i :=
        ⟨f, rest, hframes, hip.symm, hplaced, hfunction ▸ hc.short⟩
      rw [hnext.step] at hstep
      -- what the machine has before the instruction acts: its place already behind it
      have htaking : Taking c (m.past (Instr.sizeAll before.code) i)
          { f with ip := ((Instr.sizeAll before.code + i.size : Nat) : Int) } rest before after alive i := by
        constructor
        case describes =>
          rw [past, goto_program]
          exact hc
        case frames => rw [past, goto_eq hframes]
        case function => exact hfunction
        case split => exact hsplit
        case ip =>
          push_cast
          rfl
        case locals => exact hlocals
        case callers => exact hrest
      exact htaking.follows_act hstep

/-! ## Runs -/

/-- The machines of a program whose natives are functions of their calls. Between two instructions the
host may do whatever is open to it. -/
inductive Arises (p : Program) : Machine → Prop
  | new : Arises p (ofProgram p)
  /-- The host is replaced, or natives are registered, and what natives remember changes. -/
  | equip {m : Machine} (host : Host) (natives : Table Id Native) (nativeCalls : Table Id Nat)
      (budget : Int) (printed : List Text) : Arises p m →
      Arises p { m with host, natives, nativeCalls, budget, printed }
  | call {m m' : Machine} {id : Id} {args : List Value} : Arises p m → m.callId id args = .ok m' →
      Arises p m'
  | setField {m m' : Machine} {name : Text} {v : Value} : Arises p m → m.setField name v = .ok m' →
      Arises p m'
  | kill {m : Machine} (code : KillCode) : Arises p m → Arises p (m.kill code)
  /-- A tick begins. -/
  | wake {m : Machine} : Arises p m → m.state.isBusy = true →
      Arises p { m with ticks := m.ticks + 1, state := .running }
  /-- A tick notices that the machine was killed. -/
  | halt {m : Machine} : Arises p m → m.state = .running → m.killFlag = true →
      Arises p { m with state := .killed }
  /-- A tick carries out an instruction. -/
  | step {m m' : Machine} : Arises p m → m.Ready → m.step = .ok m' → Arises p m'

/-- What a machine does later is part of its history. -/
theorem Arises.steps (count : Nat) (h : Arises p m) (hsteps : m.steps count = .ok m') :
    Arises p m' :=
  steps_invariant (fun _ hstate hkilled hm => hm.halt hstate hkilled)
    (fun _ _ hready hstep hm => hm.step hready hstep) count h hsteps

/-- So is a slice of steps. -/
theorem Arises.tick (h : Arises p m) (htick : m.tick = .ok m') : Arises p m' :=
  tick_invariant (fun _ hbusy hm => hm.wake hbusy) (fun _ hstate hkilled hm => hm.halt hstate hkilled)
    (fun _ _ hready hstep hm => hm.step hready hstep) h htick

/-- What a run meets on its way. -/
theorem Arises.executes (h : Arises p m) (hnow : m.Executes m') : Arises p m' := by
  obtain ⟨hbusy, count, -, hsteps, -⟩ := hnow
  exact (h.wake hbusy).steps count hsteps

/-- The program of a machine does not change while it runs. -/
theorem Arises.program (h : Arises p m) : m.program = p := by
  induction h with
  | new => rfl
  | equip _ _ _ _ _ _ ih => exact ih
  | call _ hcall ih =>
      obtain ⟨stack, frames, rfl⟩ := exists_callId_eq hcall
      exact ih
  | setField _ hset ih =>
      obtain ⟨id, old, -, rfl⟩ := exists_setField_eq hset
      exact ih
  | kill _ _ ih => exact ih
  | wake _ _ ih => exact ih
  | halt _ _ _ ih => exact ih
  | step _ _ hstep ih => exact (step_kept hstep).program.trans ih

/-- A call of the host starts with one active call. -/
theorem follows_callId {callee : Id} {args : List Value} (hc : c.Describes m.program)
    (hcall : m.callId callee args = .ok m') : m'.Follows c := by
  simp only [callId] at hcall
  split at hcall
  · cases hcall
  · split at hcall
    · cases hcall
    · next function hfunction =>
        split at hcall
        · cases hcall
        · obtain rfl := Except.ok.inj hcall
          apply follows_of_frames rfl (hc.begins rfl rfl hfunction)
          intro g hg
          cases hg

/-- One step: by the kinds of instructions, since every instruction is quiet, an allocation, a
freeing, a jump, a call or a return. -/
theorem follows_step (hc : c.Describes m.program) (hm : m.Follows c) (hstep : m.step = .ok m') :
    m'.killFlag = true ∨ m'.Follows c := by
  cases hframes : m.frames with
  | nil =>
      -- without a call there is nothing to carry out
      rcases step_cases m with hfails | ⟨ip, code, hkilled⟩ | ⟨i, ip, next, hread, -⟩
      · rw [hfails] at hstep
        cases hstep
      · obtain rfl := Except.ok.inj (hkilled.symm.trans hstep)
        exact .inl rfl
      · obtain ⟨f, rest, hcalls⟩ := exists_frame_of_read hread
        rw [hframes] at hcalls
        cases hcalls
  | cons f rest =>
      by_cases hid : f.id = c.id
      · exact follows_step_own hc hm hframes hid hstep
      · exact follows_step_foreign hc hm hframes hid hstep

/-- In a machine that is not told to stop, the calls of a charted function have the variables that are
alive where they stand. -/
theorem Arises.follows (h : Arises p m) (hc : c.Describes p) :
    m.killFlag = true ∨ m.Follows c := by
  induction h with
  | new =>
      right
      intro f hf
      cases hf
  | equip _ _ _ _ _ _ ih => exact ih
  | call h hcall _ => exact .inr (follows_callId (h.program ▸ hc) hcall)
  | setField _ hset ih =>
      obtain ⟨id, old, -, rfl⟩ := exists_setField_eq hset
      exact ih
  | kill _ _ _ => exact .inl rfl
  | wake _ _ ih => exact ih
  | halt _ _ _ ih => exact ih
  | step h hready hstep ih =>
      have hm := ih.resolve_left (by simp [hready.alive])
      exact follows_step (h.program ▸ hc) hm hstep

end Machine

end TickScript
