import TickScript.Codegen.Basic
import TickScript.Proofs.Machine.Instruction
import TickScript.Proofs.Machine.Totality

/-!
# Code without jumps

A stretch of code that only pushes values and writes local variables runs from its first instruction
to its last, whatever machine it meets. All it changes is the address and the locals of the innermost
call and the operand stack, so its run is followed in those three (`Machine.moved`).

The equation of a whole stretch is a composition of `moved`, and compositions collapse to one
(`moved_moved`). Two ends are possible: the stretch is run to its end and the variable has a value
(`Gives`), or a value on the way is too large to be popped and kills the machine (`Breaks`).
-/

namespace TickScript.Machine

variable {m : Machine} {offset : Nat} {code : Code}

/-- A running machine in front of code of its innermost call. -/
structure Faces (m : Machine) (offset : Nat) (code : Code) : Prop where
  /-- The machine runs. -/
  running : m.state = .running
  /-- It is not killed. -/
  alive : m.killFlag = false
  /-- The innermost call stands at the place, where the code is. -/
  stands : ∃ f rest, m.frames = f :: rest ∧ f.ip = offset ∧ Placed f.function.code offset code
    ∧ f.function.code.length < 2 ^ 63

/-- The machine with its innermost call at another address, with other locals and another stack. -/
def moved (m : Machine) (offset : Nat) (locals : Table Id Value) (stack : OperandStack) : Machine :=
  { m.mapFrame fun f => { f with ip := offset, locals } with stack }

theorem moved_eq {f : Frame} {rest : List Frame} (h : m.frames = f :: rest) (offset : Nat)
    (locals : Table Id Value) (stack : OperandStack) :
    m.moved offset locals stack
      = { m with frames := { f with ip := offset, locals } :: rest, stack } := by
  simp [moved, mapFrame, h]

@[simp] theorem stack_moved (locals : Table Id Value) (stack : OperandStack) :
    (m.moved offset locals stack).stack = stack := rfl

@[simp] theorem moved_moved (offset' : Nat) (locals locals' : Table Id Value)
    (stack stack' : OperandStack) :
    (m.moved offset locals stack).moved offset' locals' stack' = m.moved offset' locals' stack' := by
  cases h : m.frames with
  | nil => simp [moved, mapFrame, h]
  | cons f rest => simp [moved, mapFrame, h]

namespace Faces

variable {i : Instr}

/-- The machine has the first instruction next. -/
theorem next (h : m.Faces offset (i :: code)) : m.Next offset i := by
  obtain ⟨f, rest, hframes, hip, hplaced, hshort⟩ := h.stands
  exact ⟨f, rest, hframes, hip, hplaced.head, hshort⟩

/-- Behind its first instruction the rest of the code is left. -/
theorem moved (h : m.Faces offset (i :: code)) (locals : Table Id Value) (stack : OperandStack) :
    (m.moved (offset + i.size) locals stack).Faces (offset + i.size) code := by
  obtain ⟨f, rest, hframes, -, hplaced, hshort⟩ := h.stands
  rw [moved_eq hframes]
  exact ⟨h.running, h.alive, _, _, rfl, rfl, hplaced.tail, hshort⟩

theorem locals_moved (h : m.Faces offset code) (offset' : Nat) (locals : Table Id Value)
    (stack : OperandStack) : (m.moved offset' locals stack).locals = locals := by
  obtain ⟨f, rest, hframes, -⟩ := h.stands
  rw [moved_eq hframes]
  rfl

/-- The steps through some code are a step over its first instruction and those through the rest. -/
theorem steps_cons {now : Machine} (h : m.Faces offset (i :: code)) (hstep : m.step = .ok now) :
    m.steps (i :: code).length = now.steps code.length := by
  rw [List.length_cons, steps_of_running h.running h.alive, hstep]

/-- Code that is placed fits into the code around it. -/
theorem sizeAll_lt (h : m.Faces offset code) : Instr.sizeAll code < 2 ^ 63 := by
  obtain ⟨f, rest, -, -, ⟨henc, before, after, hbytes, -⟩, hshort⟩ := h.stands
  have hlen := congrArg List.length hbytes
  simp only [List.length_append, Instr.length_encodeAll henc] at hlen
  omega

/-! ## Instructions -/

/-- Behind it the machine faces the rest of the code. -/
theorem past_eq (h : m.Faces offset (i :: code)) :
    m.past offset i = m.moved (offset + i.size) m.locals m.stack := by
  obtain ⟨f, rest, hframes, -⟩ := h.stands
  rw [past, goto_eq hframes, moved_eq hframes, locals, hframes]
  rfl

theorem lookup?_of_locals {id : Id} {v : Value} (hv : m.locals.get? id = some v) :
    m.lookup? id = some v := by
  rw [lookup?, hv]
  rfl

/-- A variable of the innermost call is written there. -/
theorem assign_moved (h : m.Faces offset code) {id : Id} {locals : Table Id Value} {old : Value}
    (hold : locals.get? id = some old) (v : Value) (offset' : Nat) (stack : OperandStack) :
    (m.moved offset' locals stack).assign id v = m.moved offset' (locals.set id v) stack := by
  have hhas : locals.has id = true := (Table.has_iff locals id).mpr ⟨old, hold⟩
  rw [assign, h.locals_moved, if_pos hhas]
  obtain ⟨f, rest, hframes, -⟩ := h.stands
  rw [moved_eq hframes, moved_eq hframes]
  rfl

/-- The instructions of straight code, one lemma each: the machine moves on, with its locals and its
stack changed. -/
theorem step_allocate {size : UInt64} {type : VarType} {id : Id}
    (h : m.Faces offset (.allocate size type id :: code)) :
    m.step = .ok (m.moved (offset + (Instr.allocate size type id).size)
      (m.locals.set id (.zero type)) m.stack) := by
  rw [Machine.step_allocate h.next, h.past_eq]
  obtain ⟨f, rest, hframes, -⟩ := h.stands
  rw [moved_eq hframes, moved_eq hframes]
  rfl

theorem step_set {id : Id} {data : Text} {old : Value} (h : m.Faces offset (.set id data :: code))
    (hold : m.locals.get? id = some old) :
    m.step = .ok (m.moved (offset + (Instr.set id data).size)
      (m.locals.set id ⟨old.type, data⟩) m.stack) := by
  rw [Machine.step_set h.next (lookup?_of_locals hold), h.past_eq, h.assign_moved hold]

theorem step_push {word : UInt64} (h : m.Faces offset (.push word :: code)) :
    m.step = .ok (m.moved (offset + (Instr.push word).size) m.locals (word :: m.stack)) := by
  rw [Machine.step_push h.next, h.past_eq]
  rfl

theorem step_popVar {id : Id} {v old : Value} {stack : OperandStack}
    (h : m.Faces offset (.withWord .popVar id :: code)) (hpop : m.stack.pop? = some (v, stack))
    (hold : m.locals.get? id = some old) :
    m.step = .ok (m.moved (offset + (Instr.withWord .popVar id).size)
      (m.locals.set id (v.convert old.type)) stack) := by
  rw [Machine.step_popVar h.next hpop (lookup?_of_locals hold), h.past_eq]
  exact congrArg Except.ok (h.assign_moved hold (v.convert old.type) _ stack)

/-! ## Pushing a value -/

/-- The words that are pushed come to lie on the stack, the last one on top. -/
theorem steps_words (words : List UInt64) : ∀ {m : Machine} {offset : Nat},
    m.Faces offset (words.map .push ++ code) →
    (m.moved (offset + Instr.sizeAll (words.map .push)) m.locals (words.reverse ++ m.stack)).Faces
        (offset + Instr.sizeAll (words.map .push)) code
      ∧ m.steps (words.map Instr.push ++ code).length
        = (m.moved (offset + Instr.sizeAll (words.map .push)) m.locals
            (words.reverse ++ m.stack)).steps code.length := by
  induction words with
  | nil =>
      intro m offset h
      obtain ⟨f, rest, hframes, hip, -⟩ := id h.stands
      have hstays : m.moved offset m.locals m.stack = m := by
        rw [moved_eq hframes, locals, hframes, ← hip]
        simp only [List.head?_cons, Option.map_some, Option.getD_some]
        rw [← hframes]
      show (m.moved offset m.locals m.stack).Faces offset code
        ∧ m.steps code.length = (m.moved offset m.locals m.stack).steps code.length
      rw [hstays]
      exact ⟨h, rfl⟩
  | cons word words ih =>
      intro m offset h
      have hlocals := h.locals_moved (offset + (Instr.push word).size) m.locals (word :: m.stack)
      obtain ⟨hfaces, hsteps⟩ := ih (h.moved m.locals (word :: m.stack))
      rw [moved_moved, hlocals, stack_moved, Nat.add_assoc] at hfaces hsteps
      have hreverse : (word :: words).reverse ++ m.stack = words.reverse ++ word :: m.stack := by simp
      rw [hreverse]
      exact ⟨hfaces, (h.steps_cons h.step_push).trans hsteps⟩

end Faces

/-- Code that leaves a value on the stack and changes nothing else, on machines that have some object
attached. -/
def Puts (attached : Handle) (code : Code) (v : Value) : Prop :=
  ∀ {m : Machine} {offset : Nat} {rest : Code}, m.attached = attached →
    m.Faces offset (code ++ rest) →
    (m.moved (offset + Instr.sizeAll code) m.locals (m.stack.push v)).Faces
        (offset + Instr.sizeAll code) rest
      ∧ m.steps (code ++ rest).length
        = (m.moved (offset + Instr.sizeAll code) m.locals (m.stack.push v)).steps rest.length

variable {attached : Handle}

/-- The code of a literal puts the value on the stack. -/
theorem puts_literalCode (v : Value) : Puts attached (Gen.literalCode v) v := by
  intro m offset rest _ h
  have hwords : Gen.literalCode v = (OperandStack.words v).map Instr.push := by
    simp [Gen.literalCode, Instr.literal, OperandStack.words]
  rw [hwords] at h ⊢
  exact Faces.steps_words _ h

/-- The code of a literal is longer than its data. -/
theorem length_data_le (v : Value) : v.data.length ≤ Instr.sizeAll (Gen.literalCode v) := by
  have hwords (words : List UInt64) : words.length * 9 = Instr.sizeAll (words.map Instr.push) := by
    induction words with
    | nil => rfl
    | cons word words ih =>
        have hsize : (Instr.push word).size = 9 := rfl
        simp only [List.map_cons, Instr.sizeAll, List.length_cons, hsize]
        omega
  have hcount := length_packWords v.data
  simp only [wordCount] at hcount
  simp only [Gen.literalCode, Instr.literal, Instr.sizeAll_append, ← hwords]
  split at hcount <;> omega

/-- A single instruction that pushes a value. -/
theorem puts_singleton {i : Instr} {v : Value} (hstep : ∀ {m : Machine} {offset : Nat},
    m.attached = attached → m.Next offset i → m.step = .ok ((m.past offset i).push v)) :
    Puts attached [i] v := by
  intro m offset rest hattached h
  have hpushed : m.step = .ok (m.moved (offset + i.size) m.locals (m.stack.push v)) := by
    rw [hstep hattached h.next, h.past_eq]
    rfl
  have hsize : Instr.sizeAll [i] = i.size := by simp [Instr.sizeAll]
  rw [hsize]
  exact ⟨h.moved m.locals (m.stack.push v), h.steps_cons hpushed⟩

theorem puts_null :
    Puts attached [.withWord .pushVar Name.nullObject] (.ofHandle Name.nullObject.toInt) := by
  apply puts_singleton
  intro m offset _ h
  exact step_pushNull h

theorem puts_attached :
    Puts attached [.withWord .pushVar Name.attachedObject] (.ofHandle attached.toInt) := by
  apply puts_singleton
  intro m offset hattached h
  rw [← hattached]
  exact step_pushAttached h

/-! ## What a variable holds behind some code -/

/-- The code runs to its end, and behind it a variable of the innermost call has a value. -/
def Gives (m : Machine) (offset : Nat) (code : Code) (id : Id) (v : Value) : Prop :=
  ∃ m', m.steps code.length = .ok m' ∧ m'.Faces (offset + Instr.sizeAll code) []
    ∧ m'.locals.get? id = some v

/-- The machine is killed before it gets behind the code. -/
def Breaks (m : Machine) (code : Code) (reason : KillCode) : Prop :=
  ∃ m', m.steps code.length = .ok m' ∧ m'.KilledWith reason

variable {size : UInt64} {t : VarType} {id : Id} {v : Value} {value : Code}

/-- A new variable with its data written into it. -/
theorem gives_set {data : Text} (ht : t.Storable)
    (h : m.Faces offset [.allocate size t id, .set id data]) :
    m.Gives offset [.allocate size t id, .set id data] id ⟨t, data⟩ := by
  have hzero : (Value.zero t).type = t := (Value.fills_zero ht).type
  have hnext := h.moved (m.locals.set id (.zero t)) m.stack
  have hlocals := h.locals_moved (offset + (Instr.allocate size t id).size)
    (m.locals.set id (.zero t)) m.stack
  have hold : (m.locals.set id (.zero t)).get? id = some (.zero t) := Table.get?_set_self ..
  have hset := hnext.step_set (hlocals.symm ▸ hold)
  rw [moved_moved, hlocals, hzero] at hset
  have hend := hnext.moved ((m.locals.set id (.zero t)).set id ⟨t, data⟩) m.stack
  rw [moved_moved] at hend
  refine ⟨_, (h.steps_cons h.step_allocate).trans (hnext.steps_cons hset), ?_, ?_⟩
  · simpa [Instr.sizeAll, Nat.add_assoc] using hend
  · rw [h.locals_moved]
    exact Table.get?_set_self ..

/-- In front of the store the value lies on the stack and the new variable holds the zero of its
type. -/
theorem Faces.before_store (hvalue : Puts m.attached value v)
    (h : m.Faces offset (.allocate size t id :: (value ++ [.withWord .popVar id]))) :
    ∃ (now : Machine) (stop : Nat), stop + (Instr.withWord .popVar id).size
        = offset + Instr.sizeAll (.allocate size t id :: (value ++ [.withWord .popVar id]))
      ∧ now.Faces stop [.withWord .popVar id] ∧ now.locals.get? id = some (.zero t)
      ∧ now.stack = m.stack.push v
      ∧ m.steps (.allocate size t id :: (value ++ [Instr.withWord .popVar id])).length
        = now.steps 1 := by
  have hnext := h.moved (m.locals.set id (.zero t)) m.stack
  have hattached : (m.moved (offset + (Instr.allocate size t id).size)
      (m.locals.set id (.zero t)) m.stack).attached = m.attached := by
    obtain ⟨f, rest, hframes, -⟩ := h.stands
    rw [moved_eq hframes]
  obtain ⟨hfaces, hsteps⟩ := hvalue hattached hnext
  refine ⟨_, _, ?_, hfaces, ?_, rfl, (h.steps_cons h.step_allocate).trans hsteps⟩
  · simp [Instr.sizeAll, Instr.sizeAll_append]
    omega
  · rw [hnext.locals_moved, h.locals_moved]
    exact Table.get?_set_self ..

/-- A new variable with a value from the stack stored in it: it takes the type of the variable. -/
theorem gives_stored (ht : t.Storable) (hvalue : Puts m.attached value v) (hv : v.Poppable)
    (h : m.Faces offset (.allocate size t id :: (value ++ [.withWord .popVar id]))) :
    m.Gives offset (.allocate size t id :: (value ++ [.withWord .popVar id])) id (v.convert t) := by
  obtain ⟨now, stop, hstop, hnow, hold, hstack, hsteps⟩ := h.before_store hvalue
  have hpop : now.stack.pop? = some (v, m.stack) := by
    rw [hstack]
    exact OperandStack.pop?_push_poppable hv m.stack
  have hstep := hnow.step_popVar hpop hold
  rw [(Value.fills_zero ht).type] at hstep
  refine ⟨_, hsteps.trans (hnow.steps_cons hstep), ?_, ?_⟩
  · rw [← hstop]
    exact hnow.moved _ _
  · rw [hnow.locals_moved]
    exact Table.get?_set_self ..

/-- A value that is too large to be read back from the stack is not stored. -/
theorem breaks_stored (hvalue : Puts m.attached value v) (hv : v.Stackable)
    (hlarge : OperandStack.maxValueSize < v.data.length)
    (h : m.Faces offset (.allocate size t id :: (value ++ [.withWord .popVar id]))) :
    m.Breaks (.allocate size t id :: (value ++ [.withWord .popVar id])) .stackUnderflow := by
  obtain ⟨now, stop, -, hnow, -, hstack, hsteps⟩ := h.before_store hvalue
  have hpop : now.stack.pop? = none := by
    rw [hstack]
    exact OperandStack.pop?_push_large hv hlarge m.stack
  exact ⟨_, hsteps.trans (hnow.steps_cons (step_popVar_none hnow.next hpop)), killedWith_kill ..⟩

end TickScript.Machine
