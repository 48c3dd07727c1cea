import TickScript.Proofs.Codegen.Safe
import TickScript.Proofs.Machine.Loading
import TickScript.Proofs.Machine.Totality

/-!
# Sessions with a compiled script

A host loads a compiled script and then calls functions, ticks the machine and sets fields in any
order and as often as it likes. `Machine.Session` are the machines that it can meet. None of them is
ever killed for a fault of the code, whatever the natives do that stand in for functions without a
body, and a machine that has finished has nothing left on its stacks.

Two facts meet here. The functions of a unit are safe for any number of steps once the calls that
they make are (`Holds.safe`), and a call takes a step; so by induction on the number of steps all
calls of a loaded unit are safe. And what a host does between two ticks keeps a machine safe, since
safety speaks of the control state alone and the rest has to stay within the setting: a field keeps
its type, and a call starts a function with arguments of its own.

What is asked of natives is in `Supplied`: that there is one for each function without a body, that
it takes the number of arguments with which it is called, and that its answers are well formed. They
may kill the machine, wait, and print, but do not call back into it.
-/

namespace TickScript

namespace Machine

/-! ## Sound machines -/

/-- A machine that can go on for any number of steps. -/
def Sound (w : Setting) (m : Machine) : Prop := ∀ n, Onward w (Safe w n) m

variable {w : Setting} {m m' : Machine}

/-- Safety gives a step, and the step leaves the machine safe for one less. -/
theorem Sound.step (h : Sound w m) (hstate : m.state = .running) (halive : m.killFlag = false)
    (hlimit : m.WithinLimit) : ∃ m', m.step = .ok m' ∧ Sound w m' := by
  have hsafe (n : Nat) : ∃ m', m.step = .ok m' ∧ Onward w (Safe w n) m' :=
    (h (n + 1)).going halive (by rw [hstate]; rfl) m rfl rfl rfl hstate halive (h 0).world hlimit
  obtain ⟨m', hstep, -⟩ := hsafe 0
  refine ⟨m', hstep, fun n => ?_⟩
  obtain ⟨m'', hstep', honward⟩ := hsafe n
  obtain rfl : m'' = m' := by simpa [hstep] using hstep'.symm
  exact honward

/-- A killed machine has stopped and stays sound. -/
theorem Sound.stop (h : Sound w m) (hflag : m.killFlag = true) : Sound w { m with state := .killed } :=
  fun _ => .of_killed ((h 0).world.of_eq rfl rfl rfl) hflag nofun ((h 0).killed hflag)

/-- Any number of instructions leads from a sound machine to a sound one. -/
theorem Sound.steps (count : Nat) (h : Sound w m) (hlimit : ∀ k < count, ∀ now,
    Machine.steps k m = .ok now → now.state = .running → now.killFlag = false → now.WithinLimit) :
    ∃ m', Machine.steps count m = .ok m' ∧ Sound w m' := by
  induction count generalizing m with
  | zero => exact ⟨m, rfl, h⟩
  | succ count ih =>
      by_cases hstate : m.state = .running
      · by_cases halive : m.killFlag = false
        · have hunfold (k : Nat) {next : Machine} (hstep : m.step = .ok next) :
              Machine.steps (k + 1) m = Machine.steps k next := by
            simp [Machine.steps, hstate, halive, hstep]
          obtain ⟨next, hstep, hnext⟩ :=
            h.step hstate halive (hlimit 0 (by omega) m rfl hstate halive)
          obtain ⟨m', hsteps, hsound⟩ := ih hnext fun k hk now hnow =>
            hlimit (k + 1) (by omega) now (by rw [hunfold k hstep, hnow])
          exact ⟨m', by rw [hunfold count hstep, hsteps], hsound⟩
        · have hflag : m.killFlag = true := by simpa using halive
          exact ⟨_, by simp [Machine.steps, hstate, hflag], h.stop hflag⟩
      · exact ⟨m, by simp [Machine.steps, hstate], h⟩

/-- A tick is steps and stops. -/
theorem Sound.tick (h : Sound w m) (hlimit : ∀ now, m.Executes now → now.WithinLimit) :
    ∃ m', m.tick = .ok m' ∧ Sound w m' := by
  by_cases hbusy : m.state.isBusy = true
  · have hstarted : Sound w { m with ticks := m.ticks + 1, state := .running } := fun n =>
      ⟨(h n).world.of_eq rfl rfl rfl, (h n).killed, nofun, nofun, fun halive _ =>
        (h n).going halive hbusy⟩
    obtain ⟨m', hsteps, hsound⟩ := hstarted.steps m.tickLength fun k hk now hnow hstate halive =>
      hlimit now ⟨hbusy, k, hk, hnow, hstate, halive⟩
    exact ⟨m', by simp [Machine.tick, hbusy, hsteps], hsound⟩
  · exact ⟨m, by simp [Machine.tick, hbusy], h⟩

/-- Setting a field converts the value, so the globals keep their types. -/
theorem Sound.setField {name : Text} {v : Value} (h : Sound w m) (hset : m.setField name v = .ok m') :
    Sound w m' := by
  unfold Machine.setField at hset
  simp only at hset
  split at hset
  · cases hset
  · next old hold =>
      split at hset
      · obtain rfl := Except.ok.inj hset
        have hknown := (h 0).world.known _ _ hold
        have hworld : World w { m with
            globals := m.globals.set (Name.id name) (v.convert old.type) } := by
          refine ⟨(h 0).world.program, (h 0).world.natives, (h 0).world.known.set ?_, fun id hid =>
            (Table.has_set _ _ _ _).mpr (.inr ((h 0).world.present id hid))⟩
          rw [Value.type_convert hknown]
          exact hknown
        exact fun n => ⟨hworld, (h n).killed, (h n).flagged, (h n).ended, (h n).going⟩
      · cases hset

/-! ## Sessions -/

/-- The machines that a host can meet that calls functions, ticks and sets fields. As long as a tick
runs, no value on the operand stack exceeds what can be popped. -/
inductive Session (start : Machine) : Machine → Prop
  /-- Nothing has been done yet. -/
  | start : Session start start
  /-- The host calls a function with well-formed arguments. -/
  | call {m m' : Machine} {name : Text} {args : List Value} : Session start m →
    (∀ v ∈ args, v.WellFormed) → m.call name args = .ok m' → Session start m'
  /-- The host ticks, and the machine stays within its limit. -/
  | tick {m m' : Machine} : Session start m → (∀ now, m.Executes now → now.WithinLimit) →
    m.tick = .ok m' → Session start m'
  /-- The host sets a field to a well-formed value. -/
  | setField {m m' : Machine} {name : Text} {v : Value} : Session start m → v.WellFormed →
    m.setField name v = .ok m' → Session start m'

end Machine

/-! ## Short stacks -/

namespace OperandStack

/-- The words of one value are among those of the stack. -/
theorem length_packWords_le {vs : List Value} {v : Value} (hv : v ∈ vs) (s : OperandStack) :
    (packWords v.data).length ≤ (pushAll vs s).length := by
  induction vs using List.reverseRecOn with
  | nil => cases hv
  | append_singleton vs u ih =>
      rw [pushAll_concat, push_eq]
      rcases List.mem_append.mp hv with hv | hv
      · have hle := ih hv
        simp only [List.length_cons, List.length_append]
        omega
      · obtain rfl := List.mem_singleton.mp hv
        simp only [List.length_cons, List.length_append, List.length_reverse]
        omega

end OperandStack

namespace Machine

/-- As many words as a value within the limit can have. -/
def shortStack : Nat := 0x20000

/-- A short stack holds no long value. -/
theorem withinLimit_of_short {m : Machine} (h : m.stack.length ≤ shortStack) : m.WithinLimit := by
  intro _ vs below hstack _ v hv
  have hle := OperandStack.length_packWords_le hv below
  rw [← hstack, length_packWords] at hle
  have hshort : shortStack = 0x20000 := rfl
  have hmax : OperandStack.maxValueSize = 0x100000 := rfl
  simp only [wordCount] at hle
  omega

/-- Whether the operand stack stays short during a tick. -/
def staysShort (m : Machine) : Bool :=
  (List.range m.tickLength).all fun k =>
    match steps k { m with ticks := m.ticks + 1, state := .running } with
    | .ok now => now.stack.length ≤ shortStack
    | .error _ => true

theorem withinLimit_of_staysShort {m now : Machine} (h : m.staysShort = true)
    (hnow : m.Executes now) : now.WithinLimit := by
  obtain ⟨-, k, hk, hsteps, -⟩ := hnow
  have hall := List.all_eq_true.mp h k (List.mem_range.mpr hk)
  rw [hsteps] at hall
  exact withinLimit_of_short (by simpa using hall)

end Machine

namespace Gen

open Machine

/-- Every function that a unit calls has a body in it, or a native stands in for it that takes the
number of arguments of the call and answers with well-formed values. -/
def Supplied (program : List Decl) (natives : Table Id Native) : Prop :=
  ∀ name count, (name, count) ∈ callSites program →
    (∃ f, .function f ∈ program ∧ f.name = name ∧ f.body?.isSome = true)
    ∨ ∃ native, natives.get? (Name.id name) = some native ∧ native.arity = count
      ∧ ∀ call v, (native.reply call).answer = .done v → v.WellFormed

/-- The setting of a loaded program. -/
def settingOf (p : Program) (natives : Table Id Native) : Setting :=
  ⟨p, natives, p.globals.keys⟩

variable {u : Tables} {program : List Decl} {found : List Section} {p : Program}
  {natives : Table Id Native}

/-- A loaded unit has what its code names. -/
theorem Holds.stocked (h : Holds u program p) (hunit : Generated u program found) :
    Stocked (settingOf p natives) u := by
  intro name symbol hget
  obtain ⟨d, hd, -, rfl⟩ := hunit.declared.variableDeclared name symbol hget
  obtain ⟨v, hv, -⟩ := h.global d hd
  exact List.mem_map_of_mem (Table.get?_mem hv)

/-- A loaded function of a unit is safe once the calls that it makes are. -/
theorem Holds.safe {c : Activation} {f : FuncDecl} {body : List Stmt} {n : Nat}
    (h : Holds u program p) (hunit : Generated u program found)
    (hlong : ∀ id f, p.functions.get? id = some f → f.code.length < 2 ^ 63)
    (hf : .function f ∈ program) (hbody : f.body? = some body)
    (hfunction : p.functions.get? f.id = some c.function)
    (hcalls : SafeCalls (settingOf p natives) u n) (hresumes : Resumes (settingOf p natives) c n) :
    SafeAt (settingOf p natives) c n 0 ⟨f.params.length, 0, []⟩ := by
  obtain ⟨code, hcode, hstored⟩ := h.function f body hf hbody
  obtain hfunction : c.function = storedFunction f code :=
    Option.some.inj (hfunction.symm.trans hstored)
  have hproper : f.Proper := hunit.proper _ hf
  exact safe_functionCode hcode hfunction (hlong _ _ hstored) hunit.nonnegative
    (h.stocked hunit) hproper.returnType hcalls hresumes

/-- The calls of a loaded unit are safe for any number of steps: a call takes a step, so the function
behind it has fewer left. -/
theorem Holds.safeCalls (h : Holds u program p) (hunit : Generated u program found)
    (hlong : ∀ id f, p.functions.get? id = some f → f.code.length < 2 ^ 63)
    (honly : ∀ id stored, p.functions.get? id = some stored →
      ∃ f body, .function f ∈ program ∧ f.body? = some body ∧ f.id = id)
    (hsupplied : Supplied program natives) (n : Nat) : SafeCalls (settingOf p natives) u n := by
  -- a call takes a step, so the function behind it is needed for fewer steps only
  induction n using Nat.strong_induction_on with
  | _ n ih =>
      intro name count hsite
      cases hget : p.functions.get? (Name.id name) with
      -- the name has code in the program, which is then that of the unit
      | some function =>
          obtain ⟨f, body, hf, hbody, hid⟩ := honly _ _ hget
          have hname : f.name = name := by
            have hnamed : u.names.get? (Name.id name) = some f.name :=
              hid ▸ hunit.declared.names _ hf
            exact Option.some.inj (hnamed.symm.trans hsite.named)
          obtain ⟨g, hg, hsame⟩ := hunit.declared.functionKnown f hf
          obtain rfl := hsame (by simp [hbody])
          refine .inl ⟨function, hget, fun k hk callee _ hfunction hresumes => ?_⟩
          rw [← hsite.arity g (hname ▸ hg)]
          refine h.safe hunit hlong hf hbody ?_ (ih k hk) hresumes
          rw [hfunction, hid]
          exact hget
      -- no code: the call is one of the sites that are supplied
      | none =>
          refine .inr ?_
          have hlisted : (name, count) ∈ callSites program := hunit.calls ▸ hsite.listed
          rcases hsupplied name count hlisted with ⟨f, hf, rfl, hsome⟩ | ⟨native, hnative, harity, hv⟩
          · -- a function of the unit with a body does have code
            obtain ⟨body, hbody⟩ := Option.isSome_iff_exists.mp hsome
            obtain ⟨code, -, hstored⟩ := h.function f body hf hbody
            rw [show f.id = Name.id f.name from rfl, hget] at hstored
            cases hstored
          · exact ⟨native, hget, hnative, harity, fun call v hdone => (hv call v hdone).known⟩

/-- A call of a loaded unit starts a sound machine. -/
theorem Holds.sound_call {m m' : Machine} {name : Text} {args : List Value} (h : Holds u program p)
    (hunit : Generated u program found)
    (hlong : ∀ id f, p.functions.get? id = some f → f.code.length < 2 ^ 63)
    (honly : ∀ id stored, p.functions.get? id = some stored →
      ∃ f body, .function f ∈ program ∧ f.body? = some body ∧ f.id = id)
    (hsupplied : Supplied program natives) (hm : m.Sound (settingOf p natives))
    (hargs : ∀ v ∈ args, v.WellFormed) (hcall : m.call name args = .ok m') :
    m'.Sound (settingOf p natives) := by
  unfold Machine.call Machine.callId at hcall
  split at hcall
  · cases hcall
  · split at hcall
    · cases hcall
    · next function hget =>
        rw [(hm 0).world.program] at hget
        simp only at hcall
        split at hcall
        · cases hcall
        · next hcount =>
            obtain rfl := Except.ok.inj hcall
            -- the function that was found is one of the unit
            obtain ⟨f, body, hf, hbody, hid⟩ := honly _ _ hget
            obtain ⟨code, hcode, hstored⟩ := h.function f body hf hbody
            have hsame : function = storedFunction f code :=
              Option.some.inj (hget.symm.trans (hid ▸ hstored))
            have hproper : f.Proper := hunit.proper _ hf
            have hlength : args.length = f.params.length := by
              have hwant : function.paramCount.toNat = f.params.length := by
                rw [hsame]
                exact UInt8.toNat_ofNat_of_lt' (Nat.lt_succ_of_le hproper.count)
              rw [← hwant]
              exact not_not.mp hcount
            let c : Activation := ⟨Name.id name, function, [], [], []⟩
            intro n
            -- it is safe from its start on, for any number of steps
            have hsafe : SafeAt (settingOf p natives) c n 0 ⟨f.params.length, 0, []⟩ := by
              refine h.safe hunit hlong hf hbody (hid ▸ hget)
                (h.safeCalls hunit hlong honly hsupplied n) ?_
              exact ⟨fun _ => ⟨rfl, rfl⟩, fun hcallers => absurd rfl hcallers⟩
            -- and the machine has the shape that the start asks for: the arguments and nothing else
            have hfits : Shape.Fits ⟨f.params.length, 0, []⟩ args [] [] :=
              ⟨hlength, fun v hv => (hargs v hv).known, rfl, by simp [Table.Known], by simp⟩
            exact hsafe.onward le_rfl hfits
              ⟨rfl, rfl, rfl, rfl, rfl, (hm 0).world.of_eq rfl rfl rfl⟩

end Gen

namespace Machine

/-- The machine of a host that has loaded a program and done nothing with it yet. -/
structure Fresh (p : Program) (natives : Table Id Native) (m : Machine) : Prop where
  /-- It has the loaded program. -/
  program : m.program = p
  /-- And the natives of the host. -/
  natives : m.natives = natives
  /-- With the initial values of the fields and variables. -/
  globals : m.globals = p.globals
  /-- It has not been called. -/
  state : m.state = .idle
  /-- Or killed. -/
  killFlag : m.killFlag = false

/-- A session with a compiled script, whose calls all lead to functions of it or to natives, meets no
machine that is killed for a fault of the code: such a kill is one that a native asked for. A tick
always has an answer, and where the function that was called has returned, both stacks are empty.
Natives answer and may kill the machine (`Reply`); they do not call it. -/
theorem session_never_faults {store : FileStore} {options : CompileOptions}
    {sources : List Macros.Source} {history : List Text} {script : Script} {p : Program}
    {natives : Table Id Native} {start m : Machine}
    (hscript : (compile store options sources history).script? = some script)
    (hload : ({} : Program).load script = (p, none))
    (hlong : ∀ id f, p.functions.get? id = some f → f.code.length < 2 ^ 63)
    (hsupplied : Gen.Supplied (compile store options sources history).program natives)
    (hstart : start.Fresh p natives) (h : start.Session m) :
    ((∀ now, m.Executes now → now.WithinLimit) → ∃ m', m.tick = .ok m')
    ∧ (m.state = .killed → m.killCode ∈ KillCode.faults → ∃ id native call,
      natives.get? id = some native ∧ (native.reply call).kill? = some m.killCode)
    ∧ (m.state = .finished → m.stack = [] ∧ m.savedCompares = []) := by
  obtain ⟨u, -, hunit⟩ := compile_generated hscript
  obtain ⟨p', hload', hholds, honly⟩ := hunit.load
  obtain rfl : p' = p := congrArg Prod.fst (hload'.symm.trans hload)
  -- the invariant is carried through the session, one case for each thing that a host does
  have hsound : m.Sound (Gen.settingOf p' natives) := by
    induction h with
    | start =>
        intro n
        have hknown := Program.known_load script
        rw [hload] at hknown
        refine ⟨⟨hstart.program, hstart.natives, hstart.globals ▸ hknown, fun id hid => ?_⟩, ?_, ?_,
          ?_, ?_⟩
        · obtain ⟨entry, hentry, rfl⟩ := List.mem_map.mp hid
          rw [hstart.globals]
          exact List.any_eq_true.mpr ⟨entry, hentry, by simp⟩
        · rw [hstart.killFlag]
          nofun
        · rw [hstart.state]
          nofun
        · rw [hstart.state]
          nofun
        · rw [hstart.state]
          nofun
    -- a call, a tick and a change of a field each leave a sound machine
    | call _ hargs hcall ih =>
        exact hholds.sound_call hunit hlong honly hsupplied ih hargs hcall
    | tick _ hlimit htick ih =>
        obtain ⟨m', htick', hsound⟩ := ih.tick hlimit
        obtain rfl := Except.ok.inj (htick'.symm.trans htick)
        exact hsound
    | setField _ _ hset ih => exact ih.setField hset
  -- all three parts are read off the sound machine
  refine ⟨fun hlimit => ?_, fun hstate hfault => ?_, (hsound 0).ended⟩
  · obtain ⟨m', htick, -⟩ := hsound.tick hlimit
    exact ⟨m', htick⟩
  · exact (hsound 0).killed ((hsound 0).flagged hstate) hfault

/-! ## A session with a native that takes its time -/

/-- A function that asks a native again and again and keeps the last answer in a field. -/
def askingSource : Macros.Source :=
  ⟨"ask", "field int n;define g(int x)=int;define f(int a)=int{while(a<2){a=g(a)+1;n=a;}return n;}"⟩

/-- A native that is not done at the first call and answers with its argument later on. -/
def echo : Native where
  arity := 1
  reply call :=
    if call.count = 1 then { answer := .pending }
    else { answer := .done (.ofInt (call.arguments.headD .void).toInt) }

/-- The unit of `askingSource`. -/
def askingUnit : Compiled := compile (.memory { cwd := "/" }) {} [askingSource]

/-- The script of `askingSource`, loaded. -/
def askingProgram : Program := (({} : Program).load (askingUnit.script?.getD default)).1

/-- The machine of the host. -/
def askingStart : Machine :=
  { ofProgram askingProgram with natives := [(Name.id "g", echo)], budget := 20 }

/-- What a host does with a machine. -/
inductive Act where
  /-- Calling a function. -/
  | call (name : Text) (args : List Value)
  /-- Ticking once. -/
  | tick
  /-- Setting a field. -/
  | setField (name : Text) (v : Value)

/-- The host passes only well-formed values. -/
def Act.Proper : Act → Prop
  | .call _ args => ∀ v ∈ args, v.WellFormed
  | .tick => True
  | .setField _ v => v.WellFormed

/-- The machine after some acts; none when one of them is refused or lets the stack grow. -/
def perform : List Act → Machine → Option Machine
  | [], m => some m
  | .call name args :: rest, m => (m.call name args).toOption.bind (perform rest)
  | .tick :: rest, m => if m.staysShort then m.tick.toOption.bind (perform rest) else none
  | .setField name v :: rest, m => (m.setField name v).toOption.bind (perform rest)

/-- The invariant along a whole session, by induction on what the host does. -/
theorem Session.perform {start m m' : Machine} {acts : List Act} (hs : start.Session m)
    (hacts : ∀ act ∈ acts, act.Proper) (h : m.perform acts = some m') : start.Session m' := by
  induction acts generalizing m with
  | nil => exact Option.some.inj h ▸ hs
  | cons act rest ih =>
      have hrest : ∀ act ∈ rest, act.Proper := fun act hact => hacts act (by simp [hact])
      have hact := hacts act (by simp)
      cases act with
      | call name args =>
          obtain ⟨next, hnext, h⟩ := Option.bind_eq_some_iff.mp h
          exact ih (hs.call hact (toOption_eq_some hnext)) hrest h
      | tick =>
          simp only [Machine.perform] at h
          split at h
          · next hshort =>
              obtain ⟨next, hnext, h⟩ := Option.bind_eq_some_iff.mp h
              exact ih (hs.tick (fun now => withinLimit_of_staysShort hshort)
                (toOption_eq_some hnext)) hrest h
          · cases h
      | setField name v =>
          obtain ⟨next, hnext, h⟩ := Option.bind_eq_some_iff.mp h
          exact ih (hs.setField hact (toOption_eq_some hnext)) hrest h

/-- A call, during which the native makes the machine wait and the host changes the field. -/
def askingActs : List Act :=
  [.call "f" [.ofInt 0], .tick, .setField "n" (.ofInt 7), .tick, .tick]

theorem askingStart_never_faults : ∃ m, askingStart.perform askingActs = some m
    ∧ m.state = .finished ∧ m.result = .ofInt 2 ∧ m.stack = [] ∧ m.savedCompares = [] := by
  obtain ⟨hrun, hcompiled, hloaded, hlong, hsites⟩ :
      (askingStart.perform askingActs).map (fun m => (m.state, m.result))
          = some (.finished, .ofInt 2)
        ∧ askingUnit.script?.isSome = true
        ∧ (({} : Program).load (askingUnit.script?.getD default)).2 = none
        ∧ (∀ entry ∈ askingProgram.functions, entry.2.code.length < 2 ^ 63)
        ∧ callSites askingUnit.program = [(("g" : Text), 1)] := by
    decide +kernel
  obtain ⟨m, hm, hend⟩ := Option.map_eq_some_iff.mp hrun
  obtain ⟨hstate, hresult⟩ := Prod.mk.inj hend
  obtain ⟨script, hscript⟩ := Option.isSome_iff_exists.mp hcompiled
  have hload : ({} : Program).load script = (askingProgram, none) := by
    rw [hscript] at hloaded
    refine Prod.ext ?_ hloaded
    rw [askingProgram, hscript]
    rfl
  have hlong : ∀ id f, askingProgram.functions.get? id = some f → f.code.length < 2 ^ 63 :=
    fun id f hf => hlong _ (Table.get?_mem hf)
  have hsupplied : Gen.Supplied askingUnit.program [(Name.id "g", echo)] := by
    intro name count hcall
    rw [hsites] at hcall
    obtain ⟨rfl, rfl⟩ := Prod.mk.inj (List.mem_singleton.mp hcall)
    refine .inr ⟨echo, by simp [Table.get?], rfl, fun call v hdone => ?_⟩
    simp only [echo] at hdone
    split at hdone
    · cases hdone
    · exact Answer.done.inj hdone ▸ Value.wellFormed_ofInt _
  have hproper : ∀ act ∈ askingActs, act.Proper := by
    simp [askingActs, Act.Proper, Value.wellFormed_ofInt]
  have hfresh : askingStart.Fresh askingProgram [(Name.id "g", echo)] := by
    constructor <;> simp only [askingStart, ofProgram]
  have hsession : askingStart.Session m := Session.start.perform hproper hm
  have hsafe := session_never_faults hscript hload hlong hsupplied hfresh hsession
  exact ⟨m, hm, hstate, hresult, hsafe.2.2 hstate⟩

end Machine

end TickScript
