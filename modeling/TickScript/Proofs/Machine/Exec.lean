import TickScript.Machine.Step

/-!
# The parts of an instruction as equations

An instruction is put together from parts that read the machine, change it and may end the
instruction. Each part is described here by one equation: what it answers and which machine it
leaves, by cases on the data that it looks at. Later proofs rewrite with these equations and do not
open the parts again.

Each part is a function of the machine into an answer or an end, with the machine left in either
case. With these equations an instruction becomes a composition of functions, and a statement about
it is proved by cases on the data that the parts look at.
-/

namespace TickScript

/-- What a native's reply does to the machine before its answer counts: the call is counted, the
lines are printed, and the machine is killed if the reply says so. -/
def Machine.hear (id : Id) (reply : Reply) (m : Machine) : Machine :=
  let m := { m with
    nativeCalls := m.nativeCalls.set id ((m.nativeCalls.get? id).getD 0 + 1)
    printed := reply.printed.reverse ++ m.printed }
  match reply.kill? with
  | some code => m.kill code
  | none => m

/-- The machine with the innermost call `f` left, the saved compare values cut back. -/
def Machine.leave (f : Frame) (frames : List Frame) (m : Machine) : Machine :=
  { m with frames, savedCompares := m.savedCompares.drop (m.savedCompares.length - f.cvDepth) }

namespace Exec

/-! ## The parts as functions -/

@[simp] theorem run_bind {α β : Type} (x : Exec α) (f : α → Exec β) (m : Machine) :
    (x >>= f) m = match x m with
      | .ok a m => f a m
      | .error e m => .error e m := by
  simp only [bind, EStateM.bind]
  cases x m <;> rfl

@[simp] theorem run_map {α β : Type} (f : α → β) (x : Exec α) (m : Machine) :
    (f <$> x) m = match x m with
      | .ok a m => .ok (f a) m
      | .error e m => .error e m := by
  simp only [Functor.map, EStateM.map]
  cases x m <;> rfl

@[simp] theorem run_pure {α : Type} (a : α) (m : Machine) : (pure a : Exec α) m = .ok a m := rfl

@[simp] theorem run_get (m : Machine) : (get : Exec Machine) m = .ok m m := rfl

@[simp] theorem run_set (m m' : Machine) : (set m' : Exec PUnit) m = .ok ⟨⟩ m' := rfl

@[simp] theorem run_modify (f : Machine → Machine) (m : Machine) :
    (modify f : Exec PUnit) m = .ok ⟨⟩ (f m) := rfl

@[simp] theorem run_throw {α : Type} (e : Stop) (m : Machine) :
    (throw e : Exec α) m = .error e m := rfl

@[simp] theorem run_kill {α : Type} (code : KillCode) (m : Machine) :
    (kill code : Exec α) m = .error .killed (m.kill code) := rfl

@[simp] theorem run_push (v : Value) (m : Machine) : push v m = .ok ⟨⟩ (m.push v) := rfl

/-! ## Stacks and variables -/

theorem run_pop (m : Machine) : pop m = match m.stack.pop? with
    | none => .error .killed (m.kill .stackUnderflow)
    | some (v, stack) => .ok v { m with stack } := by
  simp only [pop, run_bind, run_get]
  cases m.stack.pop? <;> rfl

theorem run_popCompare (m : Machine) : popCompare m = match m.savedCompares with
    | [] => .error .killed (m.kill .stackUnderflow)
    | cv :: savedCompares => .ok cv { m with savedCompares } := by
  simp only [popCompare, run_bind, run_get]
  cases m.savedCompares <;> rfl

theorem run_pushVariable (id : Id) (m : Machine) : pushVariable id m =
    if id = Name.nullObject then .ok () (m.push (.ofHandle Name.nullObject.toInt))
    else if id = Name.attachedObject then .ok () (m.push (.ofHandle m.attached.toInt))
    else match m.lookup? id with
      | none => .error .killed (m.kill .undefinedVariable)
      | some v => .ok () (m.push v) := by
  simp only [pushVariable, run_bind, run_get]
  split
  · rfl
  · split
    · rfl
    · cases m.lookup? id <;> rfl

theorem run_update (id : Id) (f : Value → Value) (m : Machine) : update id f m =
    match m.lookup? id with
    | none => .error .killed (m.kill .undefinedVariable)
    | some old => .ok () (m.assign id (f old)) := by
  simp only [update, run_bind, run_get]
  cases m.lookup? id <;> rfl

/-! ## Operations on values and objects -/

theorem run_arithmetic (op : BinaryOp) (m : Machine) : arithmetic op m =
    match m.stack.pop? with
    | none => .error .killed (m.kill .stackUnderflow)
    | some (b, below) =>
      match below.pop? with
      | none => .error .killed ({ m with stack := below }.kill .stackUnderflow)
      | some (a, stack) =>
        match op.apply a b with
        | none => .error .killed ({ m with stack }.kill .divisionByZero)
        | some v => .ok () ({ m with stack }.push v) := by
  simp only [arithmetic, run_bind, run_pop]
  cases m.stack.pop? with
  | none => rfl
  | some top =>
      obtain ⟨b, below⟩ := top
      simp only
      cases below.pop? with
      | none => rfl
      | some next =>
          obtain ⟨a, stack⟩ := next
          simp only
          cases op.apply a b <;> rfl

theorem run_instantiate (m : Machine) : instantiate m =
    match m.stack.pop? with
    | none => .error .killed (m.kill .stackUnderflow)
    | some (arg, stack) =>
      match m.host.instantiate arg with
      | .ok (handle, host) => .ok () ({ m with host, stack }.push (.ofHandle handle.toInt))
      | .error _ => .ok () ({ m with stack }.push (.ofHandle Name.nullObject.toInt)) := by
  simp only [instantiate, run_bind, run_pop]
  cases m.stack.pop? with
  | none => rfl
  | some top =>
      obtain ⟨arg, stack⟩ := top
      simp only [run_get]
      cases m.host.instantiate arg <;> rfl

theorem run_withObject (ask : Handle → Host → Except HostError Host)
    (attached : Handle → Handle → Handle) (m : Machine) : withObject ask attached m =
    match m.stack.pop? with
    | none => .error .killed (m.kill .stackUnderflow)
    | some (v, stack) =>
      match ask (Int64.ofInt v.toInt) m.host with
      | .ok host =>
        .ok () ({ m with host, stack, attached := attached (Int64.ofInt v.toInt) m.attached }.push .void)
      | .error _ => .ok () ({ m with stack }.push .void) := by
  simp only [withObject, run_bind, run_pop]
  cases m.stack.pop? with
  | none => rfl
  | some top =>
      obtain ⟨v, stack⟩ := top
      simp only [run_get]
      cases ask (Int64.ofInt v.toInt) m.host <;> rfl

/-! ## Calls and returns -/

/-- The reply of a native to a call with some arguments. -/
def replyTo (native : Native) (id : Id) (arguments : List Value) (m : Machine) : Reply :=
  native.reply { count := (m.nativeCalls.get? id).getD 0 + 1, ticks := m.ticks, arguments }

theorem run_call (start : Int) (id : Id) (m : Machine) : call start id m =
    match m.program.functions.get? id with
    | some function => .ok () { m with
        frames := { id, function, cvDepth := m.savedCompares.length } :: m.frames }
    | none =>
      match m.natives.get? id with
      | none => .error .killed (m.kill .undefinedFunction)
      | some native =>
        match m.stack.popMany? native.arity with
        | none => .error .killed (m.kill .stackUnderflow)
        | some (arguments, below) =>
          let reply := replyTo native id arguments m
          match reply.answer with
          | .failed => .error .killed ((m.hear id reply).kill .nativeFailure)
          | .pending =>
            .ok () { (m.hear id reply).mapFrame fun f => { f with ip := start } with state := .waiting }
          | .done result => .ok () ({ m.hear id reply with stack := below }.push result) := by
  simp only [call, run_bind, run_get]
  cases m.program.functions.get? id with
  | some function => rfl
  | none =>
      simp only
      cases m.natives.get? id with
      | none => rfl
      | some native =>
          simp only
          cases m.stack.popMany? native.arity with
          | none => rfl
          | some taken =>
              obtain ⟨arguments, below⟩ := taken
              simp only [replyTo]
              cases (native.reply _).answer <;> rfl

/-- Gives the value on top the type that a function declares. -/
def handOver (type : VarType) : Exec Unit :=
  if type = .void then pure () else do push ((← pop).convert type)

theorem run_handOver (type : VarType) (m : Machine) : handOver type m =
    if type = .void then .ok () m
    else match m.stack.pop? with
      | none => .error .killed (m.kill .stackUnderflow)
      | some (v, stack) => .ok () ({ m with stack }.push (v.convert type)) := by
  simp only [handOver]
  split
  · rfl
  · simp only [run_bind, run_pop]
    cases m.stack.pop? <;> rfl

/-- Takes the result of the outermost call. -/
def finish : Exec Unit := do
  let result ← pop
  modify fun m => { m with result, state := if m.killFlag then m.state else .finished }

theorem run_finish (m : Machine) : finish m =
    match m.stack.pop? with
    | none => .error .killed (m.kill .stackUnderflow)
    | some (result, stack) =>
      .ok () { m with stack, result, state := if m.killFlag then m.state else .finished } := by
  simp only [finish, run_bind, run_pop]
  cases m.stack.pop? <;> rfl

/-- A return: the call is left, the result takes the declared type, and the outermost call hands it
to the machine. -/
theorem run_ret {m : Machine} {f : Frame} {frames : List Frame} (h : m.frames = f :: frames) :
    ret m = (handOver f.function.returnType >>= fun _ => if frames.isEmpty then finish else pure ())
      (m.leave f frames) := by
  simp only [ret, run_bind, run_get, h, run_set, handOver, finish]
  by_cases hvoid : f.function.returnType = .void
  · simp only [hvoid, ne_eq, not_true_eq_false, if_false, if_true]
    rfl
  · simp only [hvoid, ne_eq, not_false_eq_true, if_false, if_true, run_bind, Machine.leave]
    cases pop { m with
      frames, savedCompares := m.savedCompares.drop (m.savedCompares.length - f.cvDepth) } <;> rfl

end Exec

end TickScript
