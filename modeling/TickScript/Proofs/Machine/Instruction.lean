import TickScript.CodeBuffer
import TickScript.Proofs.Machine.Act
import TickScript.Proofs.OperandStack
import TickScript.Proofs.Value

/-!
# What each instruction does

One equation for each shape of instruction that code is made of: the machine after the step, given
what the instruction finds. They all start from `Machine.Next`, which says that the instruction
stands at the address of the innermost call.

Each equation has two premises at most, that the instruction is the next one and that its operands
are there. What happens when they are not is said where it matters, by lemmas of their own
(`step_popVar_none`) or by `Machine.Outcome`. The equations give whole machines, so a proof that
follows a piece of code rewrites with one of them after the other.
-/

namespace TickScript

/-- The instruction that a machine carries out next, at an offset of the code of its innermost
call. -/
def Machine.Next (m : Machine) (offset : Nat) (i : Instr) : Prop :=
  ∃ f rest, m.frames = f :: rest ∧ f.ip = offset ∧ Placed f.function.code offset [i]
    ∧ f.function.code.length < 2 ^ 63

/-- The machine behind the instruction that it carries out. -/
abbrev Machine.past (m : Machine) (offset : Nat) (i : Instr) : Machine :=
  m.goto ((offset + i.size : Nat) : Int)

/-- The operation on values that an opcode stands for. -/
def Opcode.binary? : Opcode → Option BinaryOp
  | mod => some .mod
  | div => some .div
  | mul => some .mul
  | sub => some .sub
  | add => some .add
  | and => some .and
  | or => some .or
  | xor => some .xor
  | shiftLeft => some .shiftLeft
  | shiftRight => some .shiftRight
  | _ => none

/-- How a connective joins the saved compare value and the current one. -/
def Connective.join : Connective → Bool → Bool → Bool
  | and, saved, current => saved && current
  | or, saved, current => saved || current

/-- What a function makes of the value that it returns. -/
def FunctionBody.result (f : FunctionBody) (v : Value) : Value :=
  if f.returnType = .void then v else v.convert f.returnType

namespace Machine

variable {m : Machine} {offset : Nat}

/-! ## Moving the address -/

section

variable (m) (ip : Int)

@[simp] theorem goto_stack : (m.goto ip).stack = m.stack := by
  simp only [goto, mapFrame]
  split <;> rfl

@[simp] theorem goto_savedCompares : (m.goto ip).savedCompares = m.savedCompares := by
  simp only [goto, mapFrame]
  split <;> rfl

@[simp] theorem goto_compareValue : (m.goto ip).compareValue = m.compareValue := by
  simp only [goto, mapFrame]
  split <;> rfl

@[simp] theorem goto_compareFlag : (m.goto ip).compareFlag = m.compareFlag := by
  simp only [goto, mapFrame]
  split <;> rfl

@[simp] theorem goto_program : (m.goto ip).program = m.program := by
  simp only [goto, mapFrame]
  split <;> rfl

@[simp] theorem goto_natives : (m.goto ip).natives = m.natives := by
  simp only [goto, mapFrame]
  split <;> rfl

@[simp] theorem goto_host : (m.goto ip).host = m.host := by
  simp only [goto, mapFrame]
  split <;> rfl

@[simp] theorem goto_attached : (m.goto ip).attached = m.attached := by
  simp only [goto, mapFrame]
  split <;> rfl

@[simp] theorem goto_lookup? (id : Id) : (m.goto ip).lookup? id = m.lookup? id := by
  simp only [goto, mapFrame, lookup?, locals]
  split
  · rfl
  · next hframes => simp [hframes]

end

/-- A step fetches the next instruction and carries it out. -/
theorem Next.step {i : Instr} (h : m.Next offset i) :
    m.step = settle (Exec.act offset i (m.past offset i)) := by
  obtain ⟨f, rest, hframes, hip, hplaced, hshort⟩ := h
  rw [step_of_placed hframes hip hplaced hshort, past, goto_eq hframes]

/-! ## The operand stack -/

/-- Each lemma from here on is one instruction whose operands are there. -/
theorem step_push {word : UInt64} (h : m.Next offset (.push word)) :
    m.step = .ok { m.past offset (.push word) with stack := word :: m.stack } := by
  rw [h.step]
  simp [Exec.act, Instr.push, Instr.withWord, Instr.word, settle]

theorem step_pop {v : Value} {stack : OperandStack} (h : m.Next offset (.plain .pop))
    (hpop : m.stack.pop? = some (v, stack)) :
    m.step = .ok { m.past offset (.plain .pop) with stack } := by
  rw [h.step]
  have hact : Exec.act offset (.plain .pop) = (fun _ => ()) <$> Exec.pop := rfl
  simp only [hact, Exec.run_map, Exec.run_pop, goto_stack, hpop, settle]

theorem step_pushCompare (h : m.Next offset (.plain .pushCompare)) :
    m.step = .ok ((m.past offset (.plain .pushCompare)).push (.ofBool m.compareValue)) := by
  rw [h.step]
  have hact : Exec.act offset (.plain .pushCompare)
      = get >>= fun m => Exec.push (.ofBool m.compareValue) := rfl
  simp [hact, settle]

/-- An undefined result kills the machine; the operands are gone in either case. -/
theorem step_arithmetic {op : Opcode} {binary : BinaryOp} {a b : Value} {above stack : OperandStack}
    (h : m.Next offset (.plain op)) (hop : op.binary? = some binary)
    (hright : m.stack.pop? = some (b, above)) (hleft : above.pop? = some (a, stack)) :
    m.step = .ok (match binary.apply a b with
      | some v => push v { m.past offset (.plain op) with stack }
      | none => kill .divisionByZero { m.past offset (.plain op) with stack }) := by
  have hact : Exec.act offset (.plain op) = Exec.arithmetic binary := by
    cases op <;> first | cases hop; rfl | cases hop
  rw [h.step, hact, Exec.run_arithmetic]
  simp only [goto_stack, hright, hleft]
  cases binary.apply a b <;> rfl

/-! ## Variables -/

/-- Other ids than the two special ones are looked up. -/
theorem step_pushVar {id : Id} {v : Value} (h : m.Next offset (.withWord .pushVar id))
    (hnull : id ≠ Name.nullObject) (hattached : id ≠ Name.attachedObject)
    (hlookup : m.lookup? id = some v) :
    m.step = .ok ((m.past offset (.withWord .pushVar id)).push v) := by
  rw [h.step]
  have hact : Exec.act offset (.withWord .pushVar id) = Exec.pushVariable id := rfl
  simp [hact, Exec.run_pushVariable, hnull, hattached, hlookup, settle]

theorem step_pushNull (h : m.Next offset (.withWord .pushVar Name.nullObject)) :
    m.step = .ok ((m.past offset (.withWord .pushVar Name.nullObject)).push
      (.ofHandle Name.nullObject.toInt)) := by
  rw [h.step]
  have hact : Exec.act offset (.withWord .pushVar Name.nullObject)
      = Exec.pushVariable Name.nullObject := rfl
  simp [hact, Exec.run_pushVariable, settle]

theorem step_pushAttached (h : m.Next offset (.withWord .pushVar Name.attachedObject)) :
    m.step = .ok ((m.past offset (.withWord .pushVar Name.attachedObject)).push
      (.ofHandle m.attached.toInt)) := by
  rw [h.step]
  have hact : Exec.act offset (.withWord .pushVar Name.attachedObject)
      = Exec.pushVariable Name.attachedObject := rfl
  have hne : Name.attachedObject ≠ Name.nullObject := by decide
  simp [hact, Exec.run_pushVariable, hne, settle]

/-- The variable keeps its type, and the value is converted to it. -/
theorem step_popVar {id : Id} {v old : Value} {stack : OperandStack}
    (h : m.Next offset (.withWord .popVar id)) (hpop : m.stack.pop? = some (v, stack))
    (hlookup : m.lookup? id = some old) :
    m.step = .ok (assign id (v.convert old.type)
      { m.past offset (.withWord .popVar id) with stack }) := by
  rw [h.step]
  have hact : Exec.act offset (.withWord .popVar id)
      = Exec.pop >>= fun v => Exec.update id fun old => v.convert old.type := rfl
  have hlookup' : Machine.lookup? { m.past offset (.withWord .popVar id) with stack } id
      = some old := by
    rw [← hlookup, ← goto_lookup? m ((offset + (Instr.withWord .popVar id).size : Nat) : Int)]
    rfl
  simp only [hact, Exec.run_bind, Exec.run_pop, goto_stack, hpop, Exec.run_update, hlookup', settle]

/-- Nothing can be stored when no value lies on top of the stack. -/
theorem step_popVar_none {id : Id} (h : m.Next offset (.withWord .popVar id))
    (hpop : m.stack.pop? = none) :
    m.step = .ok ((m.past offset (.withWord .popVar id)).kill .stackUnderflow) := by
  rw [h.step]
  have hact : Exec.act offset (.withWord .popVar id)
      = Exec.pop >>= fun v => Exec.update id fun old => v.convert old.type := rfl
  simp only [hact, Exec.run_bind, Exec.run_pop, goto_stack, hpop, settle]

/-- Data that are set are not converted. -/
theorem step_set {id : Id} {data : Text} {old : Value} (h : m.Next offset (.set id data))
    (hlookup : m.lookup? id = some old) :
    m.step = .ok (assign id ⟨old.type, data⟩ (m.past offset (.set id data))) := by
  rw [h.step]
  have hact : Exec.act offset (.set id data) = Exec.update id fun old => ⟨old.type, data⟩ := rfl
  simp only [hact, Exec.run_update, goto_lookup?, hlookup, settle]

theorem step_allocate {size : UInt64} {type : VarType} {id : Id}
    (h : m.Next offset (.allocate size type id)) :
    m.step = .ok (allocate id (.zero type) (m.past offset (.allocate size type id))) := by
  have htag : (Int64.ofNat type.tag.toNat).toUInt64.toUInt8 = type.tag := by
    apply UInt8.toNat_inj.mp
    have hlt := type.tag.toNat_lt
    rcases toNat_toUInt64_cases (Int64.ofNat type.tag.toNat) with ⟨-, hcases⟩ | ⟨hneg, -⟩
    · rw [Instr.toInt_byte] at hcases
      rw [UInt64.toNat_toUInt8]
      omega
    · rw [Instr.toInt_byte] at hneg
      omega
  rw [h.step]
  have hact : Exec.act offset (.allocate size type id)
      = modify (·.allocate id (.zero ⟨(Int64.ofNat type.tag.toNat).toUInt64.toUInt8⟩)) := rfl
  simp only [hact, htag, Exec.run_modify, settle]

theorem step_free {id : Id} (h : m.Next offset (.withWord .free id)) :
    m.step = .ok (free id (m.past offset (.withWord .free id))) := by
  rw [h.step]
  rfl

/-! ## The compare value -/

theorem step_setFlag (h : m.Next offset (.plain .setFlag)) :
    m.step = .ok { m.past offset (.plain .setFlag) with compareFlag := true } := by
  rw [h.step]
  rfl

theorem step_saveCompare (h : m.Next offset (.plain .saveCompare)) :
    m.step = .ok { m.past offset (.plain .saveCompare) with
      savedCompares := m.compareValue :: m.savedCompares } := by
  rw [h.step]
  have hact : Exec.act offset (.plain .saveCompare)
      = modify fun m => { m with savedCompares := m.compareValue :: m.savedCompares } := rfl
  simp only [hact, Exec.run_modify, goto_compareValue, goto_savedCompares, settle]

theorem step_restoreCompare {cv : Bool} {saved : List Bool}
    (h : m.Next offset (.plain .restoreCompare)) (hsaved : m.savedCompares = cv :: saved) :
    m.step = .ok { m.past offset (.plain .restoreCompare) with
      savedCompares := saved, compareValue := cv } := by
  rw [h.step]
  have hact : Exec.act offset (.plain .restoreCompare)
      = Exec.popCompare >>= fun cv => modify fun m => { m with compareValue := cv } := rfl
  simp only [hact, Exec.run_bind, Exec.run_popCompare, goto_savedCompares, hsaved, Exec.run_modify,
    settle]

theorem act_compare (relation : Relation) :
    Exec.act offset (.compare relation) = (do
      let b ← Exec.pop
      let a ← Exec.pop
      modify fun m => { m with
        compareValue :=
          match Relation.ofByte? (Int64.ofNat relation.byte.toNat).toUInt64.toUInt8 with
          | some relation => relation.holds (a.order b)
          | none => false }) := rfl

theorem step_compare {relation : Relation} {a b : Value} {above stack : OperandStack}
    (h : m.Next offset (.compare relation)) (hright : m.stack.pop? = some (b, above))
    (hleft : above.pop? = some (a, stack)) :
    m.step = .ok { m.past offset (.compare relation) with
      stack, compareValue := relation.holds (a.order b) } := by
  have hbyte : Relation.ofByte? (Int64.ofNat relation.byte.toNat).toUInt64.toUInt8
      = some relation := by
    cases relation <;> decide
  rw [h.step]
  simp only [act_compare, hbyte, Exec.run_bind, Exec.run_pop, goto_stack, hright, hleft,
    Exec.run_modify, settle]

theorem step_combine {connective : Connective} {cv : Bool} {saved : List Bool}
    (h : m.Next offset (.combine connective)) (hsaved : m.savedCompares = cv :: saved) :
    m.step = .ok { m.past offset (.combine connective) with
      savedCompares := saved, compareValue := connective.join cv m.compareValue } := by
  rw [h.step]
  have hact : Exec.act offset (.combine connective) = (do
      let saved ← Exec.popCompare
      modify fun m => { m with
        compareValue :=
          if Connective.ofByte? (Int64.ofNat connective.byte.toNat).toUInt64.toUInt8 = some .or then
            saved || m.compareValue
          else saved && m.compareValue }) := rfl
  have hjoin (current : Bool) :
      (if Connective.ofByte? (Int64.ofNat connective.byte.toNat).toUInt64.toUInt8 = some .or then
        cv || current else cv && current) = connective.join cv current := by
    cases connective <;> rfl
  simp only [hact, Exec.run_bind, Exec.run_popCompare, goto_savedCompares, hsaved, Exec.run_modify,
    goto_compareValue, hjoin, settle]

/-! ## Jumps -/

/-- The address behind a relative jump and its distance. -/
theorem goto_jump (op : Opcode) (distance : Int) (hlow : -0x8000 ≤ distance)
    (hhigh : distance < 0x8000) (h : m.frames ≠ []) :
    ((m.past offset (.withWord op (Int64.ofInt distance))).mapFrame fun f =>
        { f with ip := f.ip + ((Instr.withWord op (Int64.ofInt distance)).word 0).toInt })
      = m.goto (offset + (Instr.withWord op (Int64.ofInt distance)).size + distance) := by
  have hword : ((Instr.withWord op (Int64.ofInt distance)).word 0).toInt = distance :=
    Int64.toInt_ofInt_of_le (by omega) (by omega)
  obtain ⟨f, rest, hframes⟩ := List.exists_cons_of_ne_nil h
  rw [past, goto_eq hframes, goto_eq hframes]
  simp only [mapFrame, hword]
  push_cast
  rfl

/-- The distance counts from behind the jump, which takes three bytes. -/
theorem step_jumpBy {distance : Int} (hlow : -0x8000 ≤ distance) (hhigh : distance < 0x8000)
    (h : m.Next offset (.withWord .jumpBy (Int64.ofInt distance))) :
    m.step = .ok (m.goto (offset + 3 + distance)) := by
  obtain ⟨f, rest, hframes, -⟩ := id h
  rw [h.step]
  have hact : Exec.act offset (.withWord .jumpBy (Int64.ofInt distance)) = modify fun m =>
      m.mapFrame fun f => { f with
        ip := f.ip + ((Instr.withWord .jumpBy (Int64.ofInt distance)).word 0).toInt } := rfl
  rw [hact, Exec.run_modify, goto_jump _ _ hlow hhigh (by simp [hframes])]
  rfl

/-- A conditional jump needs the flag as well as the outcome, and clears the flag. -/
theorem step_jumpIfBy {distance : Int} (hlow : -0x8000 ≤ distance) (hhigh : distance < 0x8000)
    (h : m.Next offset (.withWord .jumpIfBy (Int64.ofInt distance))) :
    m.step = .ok (if m.compareFlag && m.compareValue then m.goto (offset + 3 + distance)
      else m.goto (offset + 3)) := by
  obtain ⟨f, rest, hframes, -⟩ := id h
  rw [h.step]
  have hact : Exec.act offset (.withWord .jumpIfBy (Int64.ofInt distance)) = modify fun m =>
      if m.compareFlag && m.compareValue then
        m.mapFrame fun f => { f with
          ip := f.ip + ((Instr.withWord .jumpIfBy (Int64.ofInt distance)).word 0).toInt }
      else m := rfl
  rw [hact, Exec.run_modify, goto_jump _ _ hlow hhigh (by simp [hframes])]
  simp only [goto_compareFlag, goto_compareValue, settle]
  rfl

/-! ## Objects -/

theorem step_instantiate {arg : Value} {stack : OperandStack}
    (h : m.Next offset (.plain .instantiate)) (hpop : m.stack.pop? = some (arg, stack)) :
    m.step = .ok (match m.host.instantiate arg with
      | .ok (handle, host) =>
        push (.ofHandle handle.toInt) { m.past offset (.plain .instantiate) with host, stack }
      | .error _ =>
        push (.ofHandle Name.nullObject.toInt)
          { m.past offset (.plain .instantiate) with stack }) := by
  rw [h.step]
  have hact : Exec.act offset (.plain .instantiate) = Exec.instantiate := rfl
  simp only [hact, Exec.run_instantiate, goto_stack, hpop, goto_host]
  cases m.host.instantiate arg <;> rfl

/-- What an operation on an object asks of the host. -/
def askHost : Opcode → Handle → Host → Except HostError Host
  | .delete => Host.delete
  | .attach => Host.attach
  | _ => Host.detach

/-- Which object is attached once the host has done what it was asked. -/
def attachedBy : Opcode → (handle before : Handle) → Handle
  | .delete, handle, before => if before = handle then Name.nullObject else before
  | .attach, handle, _ => handle
  | _, _, _ => Name.nullObject

theorem step_object {op : Opcode} {v : Value} {stack : OperandStack} (h : m.Next offset (.plain op))
    (hop : op = .delete ∨ op = .attach ∨ op = .detach) (hpop : m.stack.pop? = some (v, stack)) :
    m.step = .ok (match askHost op (Int64.ofInt v.toInt) m.host with
      | .ok host => push .void { m.past offset (.plain op) with
          host, stack, attached := attachedBy op (Int64.ofInt v.toInt) m.attached }
      | .error _ => push .void { m.past offset (.plain op) with stack }) := by
  rw [h.step]
  have hact : Exec.act offset (.plain op) = Exec.withObject (askHost op) (attachedBy op) := by
    rcases hop with rfl | rfl | rfl <;> rfl
  simp only [hact, Exec.run_withObject, goto_stack, hpop, goto_host, goto_attached]
  cases askHost op (Int64.ofInt v.toInt) m.host <;> rfl

/-! ## Calls and returns -/

/-- A function of the program opens a frame; natives are looked at only if there is none. -/
theorem step_call {id : Id} {function : FunctionBody} (h : m.Next offset (.withWord .call id))
    (hfunction : m.program.functions.get? id = some function) :
    m.step = .ok { m.past offset (.withWord .call id) with
      frames := { id, function, cvDepth := m.savedCompares.length }
        :: (m.past offset (.withWord .call id)).frames } := by
  rw [h.step]
  have hact : Exec.act offset (.withWord .call id) = Exec.call offset id := rfl
  simp only [hact, Exec.run_call, goto_program, hfunction, goto_savedCompares, settle]

/-- A native is asked with the arguments popped, and its answer decides how the machine goes on. -/
theorem step_callNative {id : Id} {native : Native} {arguments : List Value} {below : OperandStack}
    (h : m.Next offset (.withWord .call id)) (hfunction : m.program.functions.get? id = none)
    (hnative : m.natives.get? id = some native)
    (harguments : m.stack.popMany? native.arity = some (arguments, below)) :
    ∃ reply, (∃ call, reply = native.reply call) ∧
      m.step = .ok (match reply.answer with
        | .failed => kill .nativeFailure (hear id reply (m.past offset (.withWord .call id)))
        | .pending => { hear id reply m with state := .waiting }
        | .done result => push result
            { hear id reply (m.past offset (.withWord .call id)) with stack := below }) := by
  refine ⟨Exec.replyTo native id arguments (m.past offset (.withWord .call id)), ⟨_, rfl⟩, ?_⟩
  rw [h.step]
  obtain ⟨f, rest, hframes, hip, -⟩ := h
  have hact : Exec.act offset (.withWord .call id) = Exec.call offset id := rfl
  simp only [hact, Exec.run_call, goto_program, hfunction, goto_natives, hnative, goto_stack,
    harguments]
  cases (Exec.replyTo native id arguments (m.past offset (.withWord .call id))).answer with
  | failed => rfl
  | done result => rfl
  | pending =>
      simp only [settle]
      generalize Exec.replyTo native id arguments (m.past offset (.withWord .call id)) = reply
      rw [past, goto_eq hframes]
      cases hkill : reply.kill? <;>
        simp [hear, hkill, mapFrame, Machine.kill, Machine.push, ← hip, hframes]

/-- A return up to the end of the call: the value on top takes the declared type. -/
theorem Next.handOver {f : Frame} {rest : List Frame} {v : Value} {stack : OperandStack}
    (h : m.Next offset (.plain .ret)) (hframes : m.frames = f :: rest)
    (hstack : m.stack = stack.push v) (hv : v.Poppable) :
    m.step = settle ((if rest.isEmpty then Exec.finish else pure ())
      { m.leave f rest with stack := stack.push (f.function.result v) }) := by
  rw [h.step]
  have hact : Exec.act offset (.plain .ret) = Exec.ret := rfl
  rw [hact, past, goto_eq hframes, Exec.run_ret rfl, Exec.run_bind, Exec.run_handOver]
  by_cases htype : f.function.returnType = .void
  · rw [if_pos htype, FunctionBody.result, if_pos htype, ← hstack]
    rfl
  · rw [if_neg htype, FunctionBody.result, if_neg htype]
    simp only [leave, hstack, OperandStack.pop?_push_poppable hv]
    rfl

/-- The result replaces whatever the callee left above its caller's values. -/
theorem step_ret {f : Frame} {rest : List Frame} {v : Value} {stack : OperandStack}
    (h : m.Next offset (.plain .ret)) (hframes : m.frames = f :: rest) (hrest : rest ≠ [])
    (hstack : m.stack = stack.push v) (hv : v.Poppable) :
    m.step = .ok { m.leave f rest with stack := stack.push (f.function.result v) } := by
  rw [h.handOver hframes hstack hv, if_neg (by simpa using hrest)]
  rfl

/-- The last frame hands its result to the host. -/
theorem step_ret_outermost {f : Frame} {v : Value} {stack : OperandStack}
    (h : m.Next offset (.plain .ret)) (hframes : m.frames = [f]) (hstack : m.stack = stack.push v)
    (hv : v.Poppable) (hresult : (f.function.result v).Poppable) (hkill : m.killFlag = false) :
    m.step = .ok { m.leave f [] with
      stack, result := f.function.result v, state := .finished } := by
  rw [h.handOver hframes hstack hv, List.isEmpty_nil, if_pos rfl, Exec.run_finish]
  have hflag : (m.leave f []).killFlag = false := hkill
  simp only [OperandStack.pop?_push_poppable hresult, hflag]
  rfl

end Machine

end TickScript
