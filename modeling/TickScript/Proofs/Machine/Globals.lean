import TickScript.Proofs.Machine.Lifetime
import TickScript.Proofs.Machine.Loading

/-!
# Global variables

Variables outside all calls are made by loading and by nothing else. Code writes them through the same
look-up that finds local variables, and the host sets fields, but either writes a value of the
variable's own type in the variable's own place. `Machine.globals_as_declared` says so of every state
that a machine can get into: it has the variables of its program, with the types that their sections
declare, while making and dropping variables is a matter of the innermost call.

Two facts make up the invariant, and they come from different sides. No instruction changes which
globals there are or their types (`Machine.step_kept`), and requests of the host do not either; what
happens while code outside runs is part of the history of the machine, so it is covered by the
induction over `Occurs` and not by a condition on natives.
-/

namespace TickScript.Machine

variable {p : Program} {discreet : Prop} {n : Nat} {m m' : Machine}

/-! ## Requests of the host -/

/-- Starting a call changes no variable's type. -/
theorem callId_kept {id : Id} {args : List Value} (h : m.callId id args = .ok m') : m.Kept m' := by
  obtain ⟨stack, frames, rfl⟩ := exists_callId_eq h
  exact .of_eq rfl rfl rfl

/-- Setting a field converts the value to the type of the field. -/
theorem setField_kept {name : Text} {v : Value} (h : m.setField name v = .ok m') : m.Kept m' := by
  obtain ⟨id, old, hold, rfl⟩ := exists_setField_eq h
  refine ⟨rfl, rfl, ?_⟩
  intro hknown
  apply Table.types_set hold
  exact Value.type_convert (hknown id old hold) v

/-! ## All states -/

/-- A machine of a program, with the variables of the program. -/
structure Owns (m : Machine) (p : Program) : Prop where
  program : m.program = p
  types : m.globals.types = p.globals.types

/-- What keeps names and types keeps the declared globals. -/
theorem Owns.of_kept (h : m.Owns p) (hknown : p.globals.Known) (hkept : m.Kept m') : m'.Owns p :=
  ⟨hkept.program.trans h.program, (hkept.globals (hknown.of_types h.types)).trans h.types⟩

/-- In every state a machine has the variables of its program. -/
theorem Occurs.owns (h : Occurs p discreet n m) (hknown : p.globals.Known) : m.Owns p := by
  induction h with
  | new => exact ⟨rfl, rfl⟩
  | equip _ _ _ _ _ _ ih => exact ⟨ih.program, ih.types⟩
  | call _ hcall ih => exact ih.of_kept hknown (callId_kept hcall)
  | setField _ hset ih => exact ih.of_kept hknown (setField_kept hset)
  | kill _ _ ih => exact ih.of_kept hknown (.of_eq rfl rfl rfl)
  | wake _ _ ih => exact ih.of_kept hknown (.of_eq rfl rfl rfl)
  | halt _ _ _ ih => exact ih.of_kept hknown (.of_eq rfl rfl rfl)
  | step _ _ _ hstep ih => exact ih.of_kept hknown (step_kept hstep)
  | enter _ _ hasks ih =>
      obtain ⟨ip, rfl⟩ := hasks.exists_goto
      exact ih.of_kept hknown (kept_mapFrame _ _)
  | answer _ _ _ _ _ ih => exact ih.of_kept hknown (kept_answer _ _ _ _)
  | ask _ _ hasks ih =>
      obtain ⟨i, behind, below, hread, -, -, rfl⟩ := hasks.read
      obtain ⟨ip, rfl⟩ := exists_goto_of_read hread
      exact ih.of_kept hknown ((kept_mapFrame _ _).trans (.of_eq rfl rfl rfl))
  | grant _ _ _ _ ih => exact ih.of_kept hknown (.of_eq rfl rfl rfl)

/-! ## Local variables -/

/-- Only in a call is there something to read. -/
theorem exists_frame_of_read {i : Instr} {past : Machine} (h : Exec.read m = .ok i past) :
    ∃ f rest, m.frames = f :: rest := by
  cases hframes : m.frames with
  | cons f rest => exact ⟨f, rest, rfl⟩
  | nil => simp [Exec.read, Exec.fetchOpcode, Exec.fetchByte, Exec.fetchWord, Exec.fetchBytes, hframes] at h

/-- What an instruction that makes or drops variables leaves of the local ones. -/
def localsAfter (i : Instr) (locals : Table Id Value) : Table Id Value :=
  if i.op = .allocate then locals.set (i.word 2) (.zero ⟨(i.word 1).toUInt64.toUInt8⟩)
  else locals.erase (i.word 0)

/-- Making and dropping variables changes the local ones of the innermost call, and its address. -/
theorem step_local {i : Instr} {past : Machine} (hread : Exec.read m = .ok i past)
    (hop : i.op = .allocate ∨ i.op = .free) : ∃ f rest ip, m.frames = f :: rest
      ∧ m.step = .ok { m with frames := { f with ip, locals := localsAfter i f.locals } :: rest } := by
  obtain ⟨f, rest, hframes⟩ := exists_frame_of_read hread
  obtain ⟨ip, rfl⟩ := exists_goto_of_read hread
  refine ⟨f, rest, ip, hframes, ?_⟩
  rw [step_eq, Exec.run_bind, hread, goto_eq hframes]
  rcases hop with hop | hop
  · simp only [Exec.act, hop, localsAfter, if_true]
    rfl
  · have hother : i.op ≠ .allocate := by simp [hop]
    simp only [Exec.act, hop, localsAfter]
    rfl

/-- Whatever happens to a machine, its variables outside all calls are those that the loaded sections
declare, each of the declared type; making and dropping variables touches only those of the call that
does it; and the program stays as it is, so that another machine of it starts as if this one did not
exist. -/
theorem globals_as_declared {scripts : List Script} (hbuilt : p.Built scripts)
    (h : Occurs p discreet n m) :
    m.globals.types = p.globals.types
    ∧ m.globals.keys.Nodup
    ∧ (∃ taken : List Section, taken.Sublist (scripts.flatMap (·.sections))
      ∧ p.globals.types = taken.filterMap Section.declared?)
    ∧ (∀ i past, Exec.read m = .ok i past → i.op = .allocate ∨ i.op = .free →
      ∃ f rest ip, m.frames = f :: rest
        ∧ m.step = .ok { m with frames := { f with ip, locals := localsAfter i f.locals } :: rest })
    ∧ ofProgram m.program = ofProgram p := by
  obtain ⟨taken, hsublist, hdeclared⟩ := hbuilt.declared
  have howns := h.owns hdeclared.known
  have hkeys (t : Table Id Value) : t.keys = t.types.map (·.1) := by
    simp [Table.keys, Table.types]
  refine ⟨howns.types, ?_, ⟨taken, hsublist, hdeclared.types⟩, ?_, ?_⟩
  · show m.globals.keys.Nodup
    rw [hkeys, howns.types, ← hkeys]
    exact hdeclared.distinct
  · intro i past hread hop
    exact step_local hread hop
  · rw [howns.program]

/-- A script with a field of type int and a function that makes a string of the same id. -/
def shadowingScript : Script :=
  { sections := [⟨.field, 7, (Value.ofInt 5).toPayload⟩,
      ⟨.function, 1, FunctionBody.toPayload
        ⟨0, .void, (Instr.allocate 0 .string 7).encode ++ [Opcode.ret.byte]⟩⟩] }

/-- The machine of `shadowingScript` in which the function was called. -/
def shadowingStarted : Machine :=
  { ofProgram (({} : Program).load shadowingScript).1 with
    frames := [{ id := 1, function := ⟨0, .void, (Instr.allocate 0 .string 7).encode ++ [Opcode.ret.byte]⟩ }]
    state := .running }

theorem shadowingStarted_globals :
    (∃ next, shadowingStarted.step = .ok next ∧ next.locals = [(7, Value.zero .string)]
      ∧ next.globals = shadowingStarted.globals)
    ∧ shadowingStarted.globals.types = [(7, .int)] := by
  have hcall : (ofProgram (({} : Program).load shadowingScript).1).callId 1 [] = .ok shadowingStarted :=
    rfl
  have hoccurs : Occurs (({} : Program).load shadowingScript).1 True 0 shadowingStarted :=
    Occurs.new.call hcall
  obtain ⟨htypes, -, -, hlocal, -⟩ := globals_as_declared (.load shadowingScript .empty) hoccurs
  have hread : Exec.read shadowingStarted
      = .ok (Instr.allocate 0 .string 7) (shadowingStarted.goto 18) := rfl
  obtain ⟨f, rest, ip, hframes, hstep⟩ := hlocal _ _ hread (.inl rfl)
  obtain ⟨rfl, -⟩ := List.cons.inj hframes
  exact ⟨⟨_, hstep, rfl, rfl⟩, htypes⟩

end TickScript.Machine
