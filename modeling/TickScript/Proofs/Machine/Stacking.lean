import TickScript.Proofs.Emitter
import TickScript.Proofs.Machine.Straight

/-!
# What is pushed is found again

A value tells its own extent on the operand stack: whatever lies below, what was pushed comes back
value by value or all at once. Code that is emitted for a literal pushes the same words one by one,
so it leaves the stack that a push of the value leaves.

The words of a value lie on the stack in the order data, length, tag, so a value can only be read
from the top. That is why a list of values that was pushed comes back in reverse when the values are
taken one by one, and in order when they are taken together.
-/

namespace TickScript

namespace Machine

variable {m : Machine} {f : Frame} {rest : List Frame}

/-- A machine in front of what was emitted last to a buffer, which its innermost call runs. -/
structure RunsEmitted (m : Machine) (f : Frame) (rest : List Frame) (emitted : Nat × CodeBuffer)
    (behind : Text) : Prop where
  /-- The machine runs. -/
  running : m.state = .running
  /-- And was not killed. -/
  alive : m.killFlag = false
  /-- Its innermost call is `f`. -/
  frames : m.frames = f :: rest
  /-- Whose code is what was emitted, with more behind it. -/
  code : f.function.code = emitted.2.bytes ++ behind
  /-- The code can be addressed. -/
  short : f.function.code.length < 2 ^ 63
  /-- The call stands at the start of what was emitted last. -/
  start : f.ip = emitted.1

/-- A machine in front of code that was just emitted faces that code. -/
theorem RunsEmitted.faces {b : CodeBuffer} {code : Code} {behind : Text}
    (h : m.RunsEmitted f rest (b.append (Instr.encodeAll code)) behind)
    (hcode : ∀ i ∈ code, i.Encodable) : m.Faces b.length code :=
  ⟨h.running, h.alive, f, rest, h.frames, h.start, ⟨hcode, b.bytes, behind, h.code, rfl⟩, h.short⟩

/-- The instructions of a literal push the words of its value. -/
theorem literal_eq (v : Value) :
    Instr.literal v.type v.data = (OperandStack.words v).map Instr.push := by
  simp [Instr.literal, OperandStack.words]

/-- A pushed value takes a word for its data, eight bytes each, one for the length and one for the
tag. -/
theorem length_literal (v : Value) :
    (Instr.literal v.type v.data).length = (wordCount v.data.length).toNat + 2 := by
  rw [literal_eq, List.length_map, OperandStack.words, List.length_append, length_packWords]
  rfl

/-- The emitted code of a literal runs to its end. All that it has changed there is the address and
the stack, which is as after a push of the value. -/
theorem steps_emitValue {b : CodeBuffer} {v : Value} {behind : Text}
    (h : m.RunsEmitted f rest (b.emitValue v.type v.data) behind) :
    m.steps ((wordCount v.data.length).toNat + 2)
      = .ok { m with
          frames := { f with ip := (b.emitValue v.type v.data).2.length } :: rest
          stack := m.stack.push v } := by
  have hencodable := Instr.encodable_literal v.type v.data
  have hfaces := RunsEmitted.faces (CodeBuffer.emitValue_eq b v.type v.data ▸ h) hencodable
  have hlocals : m.locals = f.locals := by
    rw [locals, h.frames]
    rfl
  have hend : (b.emitValue v.type v.data).2.length
      = b.length + Instr.sizeAll (Instr.literal v.type v.data) := by
    rw [← Instr.length_encodeAll hencodable, CodeBuffer.emitValue_eq]
    exact List.length_append
  rw [literal_eq, ← List.append_nil (List.map _ _)] at hfaces
  obtain ⟨-, hsteps⟩ := hfaces.steps_words (OperandStack.words v)
  rw [List.append_nil, ← literal_eq, length_literal, moved_eq h.frames, hlocals, ← hend] at hsteps
  exact hsteps

/-- The operand stack describes itself. On any stack, values that can be popped are found again behind
each other when they are taken together, and in reverse when they are popped one by one; both leave
the stack that was there. The code that is emitted for a value leaves the stack that a push of the
value leaves, and nothing else but the address is changed. -/
theorem pushed_values_return :
    (∀ (s : OperandStack) (vs : List Value), (∀ v ∈ vs, v.Poppable) →
      OperandStack.popMany? vs.length (OperandStack.pushAll vs s) = some (vs, s)
      ∧ OperandStack.popEach? vs.length (OperandStack.pushAll vs s) = some (vs.reverse, s))
    ∧ ∀ (m : Machine) (f : Frame) (rest : List Frame) (b : CodeBuffer) (v : Value) (behind : Text),
      m.RunsEmitted f rest (b.emitValue v.type v.data) behind →
      m.steps ((wordCount v.data.length).toNat + 2)
        = .ok { m with
            frames := { f with ip := (b.emitValue v.type v.data).2.length } :: rest
            stack := m.stack.push v } := by
  constructor
  · intro s vs h
    have htogether := OperandStack.popMany?_pushAll vs s h
    refine ⟨htogether, ?_⟩
    rw [OperandStack.popEach?_eq, htogether]
    rfl
  · intro m f rest b v behind h
    exact steps_emitValue h

/-- A text of nine bytes behind another instruction. -/
def greeting : Value := .ofText "good day"

/-- The call of a function that pushes the text. -/
def greetingFrame : Frame :=
  { id := 1
    function := ⟨0, .void, ((CodeBuffer.mk [0]).emitValue greeting.type greeting.data).2.bytes⟩
    ip := 1 }

/-- A machine in front of the code of the text, with a word on its stack that belongs to no value. -/
def greeter : Machine :=
  { Machine.ofProgram {} with frames := [greetingFrame], stack := [8], state := .running }

theorem greeting_returns :
    (∀ v ∈ [Value.void, greeting], v.Poppable)
    ∧ OperandStack.popEach? 2 (OperandStack.pushAll [.void, greeting] [8]) = some ([greeting, .void], [8])
    ∧ greeter.RunsEmitted greetingFrame [] ((CodeBuffer.mk [0]).emitValue greeting.type greeting.data) []
    ∧ ∃ now, greeter.steps 4 = .ok now ∧ now.stack = OperandStack.push greeting [8] := by
  have hpoppable : ∀ v ∈ [Value.void, greeting], v.Poppable := by
    intro v hv
    rcases List.mem_pair.1 hv with rfl | rfl
    · exact ⟨by decide, by decide⟩
    · exact ⟨by decide, by decide⟩
  have hruns : greeter.RunsEmitted greetingFrame []
      ((CodeBuffer.mk [0]).emitValue greeting.type greeting.data) [] :=
    ⟨rfl, rfl, rfl, (List.append_nil _).symm, by decide, rfl⟩
  exact ⟨hpoppable, (pushed_values_return.1 [8] _ hpoppable).2, hruns, _,
    pushed_values_return.2 _ _ _ _ _ _ hruns, rfl⟩

end Machine

end TickScript
