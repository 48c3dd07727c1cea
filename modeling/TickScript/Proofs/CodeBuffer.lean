import Mathlib.Logic.Function.Basic
import TickScript.Proofs.Codegen.WellFormed
import TickScript.Proofs.Emitter

/-!
# What is emitted is decoded

The emitters write instructions byte by byte and the decoder reads them off its table; that they agree
on each shape of instruction is shown in `Proofs.Emitter`. Here it is carried to whole sessions:
whatever is emitted to several buffers, and whichever of them are spliced into others on the way, the
bytes of each buffer are decoded as the instructions that were asked for, where the emitters said that
they stand. Each buffer has a journal of what was emitted to it; splicing moves the journal of the
scratch buffer behind that of its parent, and the one law to prove is that a buffer holds the bytes of
its journal (`Records`), which every command keeps.

A jump is emitted for a distance or for a target, and when code is spliced its own jumps keep both:
the relative distance is in the bytes and does not change, so the target moves along with the code
(`jump_spliced`). A refused jump emits nothing, which is why the journal of a buffer and the answer
of the emitter are stated together in `Sound`: the answer says whether the journal grows and by
what.

Distances are 64-bit numbers and wrap; the statements about targets are therefore equations between
64-bit numbers and need no bound on the length of a buffer.
-/

namespace TickScript

namespace CodeBuffer

/-! ## Emissions -/

/-- What an emitter is asked for. -/
inductive Emission where
  /-- An operation without operands. -/
  | plain (op : Opcode)
  /-- An operation with a word behind it. -/
  | word (op : Opcode) (operand : UInt64)
  /-- An operation with a byte behind it. -/
  | byte (op : Opcode) (operand : UInt8)
  /-- A word that is pushed. -/
  | push (raw : UInt64)
  /-- All the words of a literal. -/
  | value (v : Value)
  /-- A new variable. -/
  | allocate (size : UInt64) (type : VarType) (id : Id)
  /-- Data that are written into a variable as they are. -/
  | set (id : Id) (data : Text)
  /-- The kill with a code. -/
  | kill (code : Int64)
  /-- A relative jump by a distance. -/
  | jump (op : Opcode) (distance : Int64)
  /-- A relative jump to a place in the code. -/
  | jumpTo (op : Opcode) (target : Int64)

namespace Emission

/-- The emitter is used with an opcode of its shape, and the size of data is a 64-bit number. -/
def Fits : Emission → Prop
  | plain op => op.operands = []
  | word op _ => op.operands.map (·.width) = [.bits64]
  | byte op _ => op.operands.map (·.width) = [.bits8]
  | jump op _ => op.isRelative = true
  | jumpTo op _ => op.isRelative = true
  | set _ data => data.length < 2 ^ 63
  | _ => True

/-- The answer of the emitter. -/
def perform (b : CodeBuffer) : Emission → Except JumpTooFar (Nat × CodeBuffer)
  | plain op => .ok (b.emit op.byte)
  | word op operand => .ok (b.emitWord op.byte operand)
  | byte op operand => .ok (b.emitByte op.byte operand)
  | push raw => .ok (b.emitPush raw)
  | value v => .ok (b.emitValue v.type v.data)
  | allocate size type id => .ok (b.emitAllocate size type id)
  | set id data => .ok (b.emitSet id data)
  | kill code => .ok (b.emitKill code)
  | jump op distance => b.emitJump op.byte distance.toInt
  | jumpTo op target => b.emitJumpTo op.byte target.toInt

/-- The distance that a relative jump at an offset is asked for. -/
def distance? (offset : Nat) : Emission → Option Int64
  | jump _ distance => some distance
  | jumpTo _ target => some (target - Int64.ofNat (offset + relativeJumpSize))
  | _ => none

/-- Why nothing is emitted at an offset. -/
def refusal? (offset : Nat) (e : Emission) : Option JumpTooFar :=
  (e.distance? offset).bind fun distance =>
    if distance.toInt < -0x8000 ∨ 0x8000 ≤ distance.toInt then some ⟨distance.toInt⟩ else none

/-- The instructions that are asked for, the first of which stands at an offset. -/
def code (offset : Nat) : Emission → Code
  | plain op => [.plain op]
  | word op operand => [.withWord op operand.toInt64]
  | byte op operand => [.withWord op (Int64.ofNat operand.toNat)]
  | push raw => [.push raw]
  | value v => Instr.literal v.type v.data
  | allocate size type id => [.allocate size type id]
  | set id data => [.set id data]
  | kill code => [.withWord .kill code]
  | jump op distance => [.withWord op distance]
  | jumpTo op target => [.withWord op (target - Int64.ofNat (offset + relativeJumpSize))]

end Emission

/-! ## Several buffers -/

/-- What is done to one of several buffers: something is emitted, or a scratch buffer is spliced and
starts again. -/
inductive Command where
  | emit (buffer : Nat) (e : Emission)
  | splice (buffer scratch : Nat)

/-- The emitters are used as they should be. -/
def Command.Fits : Command → Prop
  | emit _ e => e.Fits
  | splice _ _ => True

/-- Buffers, and what was emitted to each of them with the offsets that were answered. -/
structure Drafts where
  buffers : Nat → CodeBuffer := fun _ => {}
  journal : Nat → List (Nat × Instr) := fun _ => []

namespace Drafts

/-- A listing of code that is moved behind other code. -/
def shift (distance : Nat) (listing : List (Nat × Instr)) : List (Nat × Instr) :=
  listing.map fun entry => (distance + entry.1, entry.2)

/-- The buffers after a command. A refused jump leaves them as they were. -/
def next (s : Drafts) : Command → Drafts
  | .emit k e =>
    match e.perform (s.buffers k) with
    | .ok (offset, b) =>
      { buffers := Function.update s.buffers k b
        journal := Function.update s.journal k
          (s.journal k ++ Instr.listing offset (e.code offset)) }
    | .error _ => s
  | .splice k scratch =>
    { buffers := Function.update
        (Function.update s.buffers k ((s.buffers k).splice (s.buffers scratch))) scratch {}
      journal := Function.update
        (Function.update s.journal k
          (s.journal k ++ shift (s.buffers k).length (s.journal scratch))) scratch [] }

/-- Empty buffers after some commands. -/
def run (commands : List Command) : Drafts := commands.foldl next {}

/-- Where an instruction of a buffer starts; the end of the buffer when there is none of that number. -/
def start (s : Drafts) (k number : Nat) : Nat :=
  ((s.journal k)[number]?.map (·.1)).getD (s.buffers k).length

end Drafts

/-! ## Emissions and their instructions -/

theorem encodeAll_singleton (i : Instr) : Instr.encodeAll [i] = i.encode := by simp [Instr.encodeAll]

namespace Emission

variable {e : Emission} (h : e.Fits)

include h

/-- What is emitted fits the layout of instructions. -/
theorem encodable_code {offset : Nat} (hnear : e.refusal? offset = none) :
    ∀ i ∈ e.code offset, i.Encodable := by
  -- both kinds of jump come down to one by a distance within reach
  have hjump {op : Opcode} (hop : op.isRelative = true) {distance : Int64}
      (hdistance : e.distance? offset = some distance) :
      ∀ i ∈ [Instr.withWord op distance], i.Encodable := by
    have hreach : ¬(distance.toInt < -0x8000 ∨ 0x8000 ≤ distance.toInt) := by
      intro hfar
      simp [refusal?, hdistance, hfar] at hnear
    refine List.forall_mem_singleton.2 (Instr.encodable_withWord (operands_of_isRelative hop) ?_)
    exact ⟨by omega, by omega⟩
  cases e with
  | plain op => exact List.forall_mem_singleton.2 (Instr.encodable_plain h)
  | word op operand =>
      obtain ⟨spec, hop, hwidth⟩ := exists_operand h
      refine List.forall_mem_singleton.2 (Instr.encodable_withWord hop ?_)
      simp [Operand.Holds, hwidth]
  -- a byte is also in the range of a signed operand
  | byte op operand =>
      obtain ⟨spec, hop, hwidth⟩ := exists_operand h
      refine List.forall_mem_singleton.2 (Instr.encodable_withWord hop ?_)
      have hbyte := operand.toNat_lt
      simp only [Operand.Holds, hwidth, Instr.toInt_byte]
      omega
  | push raw => exact List.forall_mem_singleton.2 (Instr.encodable_push raw)
  | value v => exact Instr.encodable_literal v.type v.data
  | allocate size type id => exact List.forall_mem_singleton.2 (Instr.encodable_allocate size type id)
  | set id data => exact List.forall_mem_singleton.2 (Instr.encodable_set h)
  | kill code => exact List.forall_mem_singleton.2 (Instr.encodable_withWord rfl trivial)
  | jump op distance => exact hjump h rfl
  | jumpTo op target => exact hjump h rfl

/-- An emitter appends the bytes of the instructions that it is asked for, or refuses. -/
theorem perform_eq (b : CodeBuffer) : e.perform b = match e.refusal? b.length with
    | some far => .error far
    | none => .ok (b.append (Instr.encodeAll (e.code b.length))) := by
  have hjump {op : Opcode} (hop : op.isRelative = true) {distance : Int64}
      (hdistance : e.distance? b.length = some distance)
      (hcode : e.code b.length = [.withWord op distance]) :
      b.emitJump op.byte distance.toInt = match e.refusal? b.length with
        | some far => .error far
        | none => .ok (b.append (Instr.encodeAll (e.code b.length))) := by
    -- the refusal is by the distance on both sides
    rw [emitJump_eq b hop, refusal?, hdistance, hcode, encodeAll_singleton, Option.bind_some]
    split <;> rfl
  cases e with
  | plain op =>
      have hplain : (Instr.plain op).encode = [op.byte] := by simp [Instr.encode, Instr.plain]
      simp only [perform, code, encodeAll_singleton, hplain]
      rfl
  | word op operand =>
      obtain ⟨spec, hop, hwidth⟩ := exists_operand h
      simp only [perform, emitWord_eq b hop hwidth, code, encodeAll_singleton]
      rfl
  | byte op operand =>
      obtain ⟨spec, hop, hwidth⟩ := exists_operand h
      simp only [perform, emitByte_eq b hop hwidth, code, encodeAll_singleton]
      rfl
  | push raw =>
      simp only [perform, emitPush_eq, code, encodeAll_singleton]
      rfl
  | value v =>
      simp only [perform, emitValue_eq, code]
      rfl
  | allocate size type id =>
      simp only [perform, emitAllocate_eq, code, encodeAll_singleton]
      rfl
  | set id data =>
      simp only [perform, emitSet_eq, code, encodeAll_singleton]
      rfl
  | kill code' =>
      simp only [perform, emitKill_eq, code, encodeAll_singleton]
      rfl
  | jump op distance => exact hjump h rfl rfl
  -- a jump to an offset is the jump by the distance to it
  | jumpTo op target => exact (emitJumpTo_eq b op.byte target).trans (hjump h rfl rfl)

/-- What becomes of an emission: it is refused, or its instructions stand at the end of the buffer. -/
theorem perform_cases (b : CodeBuffer) :
    (∃ far, e.refusal? b.length = some far ∧ e.perform b = .error far)
      ∨ ((∀ i ∈ e.code b.length, i.Encodable)
        ∧ e.perform b = .ok (b.append (Instr.encodeAll (e.code b.length)))) := by
  rw [perform_eq h]
  cases hrefusal : e.refusal? b.length with
  | some far => exact .inl ⟨far, rfl, rfl⟩
  | none => exact .inr ⟨encodable_code h hrefusal, rfl⟩

end Emission

/-! ## Targets -/

/-- A jump that is emitted for a target leads there, in 64-bit numbers. -/
theorem target_jumpTo {op : Opcode} (hop : op.isRelative = true) (offset : Nat) (target : Int64) :
    Int64.ofInt ((Instr.withWord op (target - Int64.ofNat (offset + relativeJumpSize))).target offset)
      = target := by
  have hsize (distance : Int64) : (Instr.withWord op distance).size = relativeJumpSize := by
    show 1 + op.operands.foldr _ 0 + 0 = _
    rw [operands_of_isRelative hop]
    rfl
  have hrelative (distance : Int64) : (Instr.withWord op distance).op.isRelative = true := hop
  simp only [Instr.target, hsize, hrelative, if_true]
  show Int64.ofInt (offset + relativeJumpSize + (target - Int64.ofNat (offset + relativeJumpSize)).toInt)
    = target
  rw [Int64.ofInt_add, Int64.ofInt_toInt, ← Int.natCast_add, Int64.ofInt_eq_ofNat,
    Int64.add_comm, Int64.sub_add_cancel]

/-- A relative jump that is moved leads as much further. -/
theorem target_add {i : Instr} (h : i.op.isRelative = true) (distance offset : Nat) :
    i.target (distance + offset) = distance + i.target offset := by
  simp only [Instr.target, h, if_true]
  omega

/-! ## Buffers and their journals -/

/-- A buffer holds the bytes of the instructions in its journal, which stand where it says. -/
def Records (b : CodeBuffer) (journal : List (Nat × Instr)) : Prop :=
  ∃ code : Code, (∀ i ∈ code, i.Encodable) ∧ b.bytes = Instr.encodeAll code
    ∧ journal = Instr.listing 0 code

/-- An empty buffer has an empty journal. -/
theorem records_empty : Records {} [] := ⟨[], by simp, rfl, rfl⟩

/-- Code that stands further back is listed with its offsets moved. -/
theorem listing_add (distance offset : Nat) (code : Code) :
    Instr.listing (distance + offset) code = Drafts.shift distance (Instr.listing offset code) := by
  induction code generalizing offset with
  | nil => rfl
  | cons i code ih => rw [Instr.listing, Nat.add_assoc, ih]; rfl

variable {b : CodeBuffer} {journal : List (Nat × Instr)}

/-- The length of a buffer is the size of the code in it. -/
theorem length_of_bytes {code : Code} (hcode : ∀ i ∈ code, i.Encodable)
    (hbytes : b.bytes = Instr.encodeAll code) : b.length = Instr.sizeAll code := by
  rw [length, hbytes, Instr.length_encodeAll hcode]

/-- More code behind the buffer goes behind the journal. -/
theorem Records.append (h : Records b journal) {more : Code} (hmore : ∀ i ∈ more, i.Encodable) :
    Records ⟨b.bytes ++ Instr.encodeAll more⟩ (journal ++ Instr.listing b.length more) := by
  obtain ⟨code, hcode, hbytes, rfl⟩ := h
  refine ⟨code ++ more, List.forall_mem_append.2 ⟨hcode, hmore⟩, ?_, ?_⟩
  · rw [hbytes, Instr.encodeAll_append]
  · rw [Instr.listing_append, length_of_bytes hcode hbytes, Nat.zero_add]

/-- Splicing moves the journal of the scratch buffer behind that of the other. -/
theorem Records.splice (h : Records b journal) {scratch : CodeBuffer} {listing : List (Nat × Instr)}
    (hscratch : Records scratch listing) :
    Records (b.splice scratch) (journal ++ Drafts.shift b.length listing) := by
  obtain ⟨code, hcode, hbytes, rfl⟩ := hscratch
  rw [← listing_add, Nat.add_zero, CodeBuffer.splice, hbytes]
  exact h.append hcode

/-- The bytes of a buffer are decoded as its journal. -/
theorem Records.decodes (h : Records b journal) (hlong : b.length < 2 ^ 63) :
    Decodes b.bytes 0 journal := by
  obtain ⟨code, hcode, hbytes, rfl⟩ := h
  have hlength := length_of_bytes hcode hbytes
  rw [length, hbytes] at hlong hlength
  rw [hbytes]
  exact Instr.decodes_of_placed hlong (.whole hcode) (by rw [hlength, Nat.zero_add])

namespace Drafts

variable {s : Drafts}

theorem records_next {c : Command} (hc : c.Fits) (h : ∀ k, Records (s.buffers k) (s.journal k)) :
    ∀ k, Records ((s.next c).buffers k) ((s.next c).journal k) := by
  cases c with
  | emit k e =>
      intro other
      -- a refused emission leaves every buffer and its journal alone
      obtain ⟨far, -, hperform⟩ | ⟨hcode, hperform⟩ := Emission.perform_cases hc (s.buffers k)
      · simp only [next, hperform]
        exact h other
      · simp only [next, hperform]
        by_cases hk : other = k
        · subst hk
          simp only [Function.update_self]
          exact (h other).append hcode
        · simp only [Function.update_of_ne hk]
          exact h other
  | splice k scratch =>
      intro other
      simp only [next]
      -- the scratch buffer is empty afterwards, and the parent holds both
      by_cases hscratch : other = scratch
      · subst hscratch
        simp only [Function.update_self]
        exact records_empty
      · simp only [Function.update_of_ne hscratch]
        by_cases hk : other = k
        · subst hk
          simp only [Function.update_self]
          exact (h other).splice (h scratch)
        · simp only [Function.update_of_ne hk]
          exact h other

theorem records_run {commands : List Command} (hfits : ∀ c ∈ commands, c.Fits) :
    ∀ k, Records ((run commands).buffers k) ((run commands).journal k) := by
  -- by induction on the commands, from any buffers that hold what their journals say
  have hfold (s : Drafts) (h : ∀ k, Records (s.buffers k) (s.journal k)) :
      ∀ k, Records ((commands.foldl next s).buffers k) ((commands.foldl next s).journal k) := by
    induction commands generalizing s with
    | nil => exact h
    | cons c commands ih =>
        obtain ⟨hc, hrest⟩ := List.forall_mem_cons.1 hfits
        exact ih hrest _ (records_next hc h)
  exact hfold {} fun _ => records_empty

/-- Splicing keeps what the jumps of the scratch buffer lead to. -/
theorem jump_spliced {k scratch : Nat} (hne : k ≠ scratch) {number goal offset : Nat} {i : Instr}
    (hentry : (s.journal scratch)[number]? = some (offset, i)) (hop : i.op.isRelative = true)
    (hgoal : i.target offset = s.start scratch goal) :
    ((s.next (.splice k scratch)).journal k)[(s.journal k).length + number]?
        = some ((s.buffers k).length + offset, i)
      ∧ i.target ((s.buffers k).length + offset)
        = (s.next (.splice k scratch)).start k ((s.journal k).length + goal) := by
  have hjournal : (s.next (.splice k scratch)).journal k
      = s.journal k ++ shift (s.buffers k).length (s.journal scratch) := by
    simp only [next, Function.update_of_ne hne, Function.update_self]
  have hlength : ((s.next (.splice k scratch)).buffers k).length
      = (s.buffers k).length + (s.buffers scratch).length := by
    simp only [next, Function.update_of_ne hne, Function.update_self]
    exact List.length_append
  have hmoved (n : Nat) : ((s.next (.splice k scratch)).journal k)[(s.journal k).length + n]?
      = (s.journal scratch)[n]?.map fun entry => ((s.buffers k).length + entry.1, entry.2) := by
    rw [hjournal, List.getElem?_append_right (Nat.le_add_right _ _), Nat.add_sub_cancel_left, shift,
      List.getElem?_map]
  refine ⟨?_, ?_⟩
  · rw [hmoved, hentry]
    rfl
  · rw [target_add hop, hgoal, start, start, hmoved, hlength]
    cases (s.journal scratch)[goal]? <;> simp

/-- What the buffers promise at any time: their bytes are decoded as their journals, an emission adds its
instructions to the journal where it answers or leaves everything as it was, a jump to an offset leads
there, and splicing moves jumps along with what they lead to. -/
structure Sound (s : Drafts) (k : Nat) : Prop where
  /-- The bytes of every buffer that can be addressed are read as its journal. -/
  decodes : (s.buffers k).length < 2 ^ 63 → Decodes (s.buffers k).bytes 0 (s.journal k)
  /-- An emission that is not refused answers where it starts, and its instructions join the
  journal. -/
  emitted : ∀ e : Emission, e.Fits → e.refusal? (s.buffers k).length = none →
    e.perform (s.buffers k) = .ok ((s.buffers k).length, (s.next (.emit k e)).buffers k)
      ∧ (s.next (.emit k e)).journal k
        = s.journal k ++ Instr.listing (s.buffers k).length (e.code (s.buffers k).length)
  /-- A refused emission changes nothing. -/
  refused : ∀ e : Emission, e.Fits → ∀ far, e.refusal? (s.buffers k).length = some far →
    e.perform (s.buffers k) = .error far ∧ s.next (.emit k e) = s
  /-- A jump that was asked for by its target is decoded with that target. -/
  leads : ∀ op : Opcode, op.isRelative = true → ∀ (target : Int64) (offset : Nat) (b : CodeBuffer),
    (Emission.jumpTo op target).perform (s.buffers k) = .ok (offset, b) → b.length < 2 ^ 63 →
      ∃ i, Instr.decodeAt b.bytes (offset : Nat) = .ok i ∧ i.op = op
        ∧ Int64.ofInt (i.target offset) = target
  /-- A jump of the scratch buffer leads to the same instruction behind the splice. -/
  spliced : ∀ scratch, k ≠ scratch → ∀ (number goal offset : Nat) (i : Instr),
    (s.journal scratch)[number]? = some (offset, i) → i.op.isRelative = true →
      i.target offset = s.start scratch goal →
        ((s.next (.splice k scratch)).journal k)[(s.journal k).length + number]?
            = some ((s.buffers k).length + offset, i)
          ∧ i.target ((s.buffers k).length + offset)
            = (s.next (.splice k scratch)).start k ((s.journal k).length + goal)

/-- Whatever is emitted and spliced, the buffers keep their promises. -/
theorem sound_run {commands : List Command} (hfits : ∀ c ∈ commands, c.Fits) (k : Nat) :
    (run commands).Sound k := by
  have hrecords := records_run hfits k
  refine ⟨hrecords.decodes, fun e he hnear => ?_, fun e he far hfar => ?_,
    fun op hop target offset b hperform hlong => ?_,
    fun scratch hne number goal offset i hentry hop hgoal => jump_spliced hne hentry hop hgoal⟩
  · have hperform := Emission.perform_eq he ((run commands).buffers k)
    rw [hnear] at hperform
    simp only [next, hperform, Function.update_self]
    exact ⟨rfl, rfl⟩
  · have hperform := Emission.perform_eq he ((run commands).buffers k)
    rw [hfar] at hperform
    exact ⟨hperform, by simp only [next, hperform]⟩
  · obtain ⟨far, -, hrefused⟩ | ⟨hcode, hanswer⟩ :=
      Emission.perform_cases (e := .jumpTo op target) hop ((run commands).buffers k)
    · rw [hrefused] at hperform
      cases hperform
    · rw [hanswer] at hperform
      cases hperform
      have hdecodes := (hrecords.append hcode).decodes hlong
      exact ⟨_, hdecodes.decodeAt (List.mem_append_right _ List.mem_cons_self), rfl,
        target_jumpTo hop _ target⟩

/-- A body with a jump that is refused and one back to its start, which is spliced behind a push. -/
def loopCommands : List Command :=
  [.emit 0 (.push 7), .emit 1 (.value ⟨.string, "ok"⟩), .emit 1 (.set 256 "ab"),
    .emit 1 (.jump .jumpBy 40000), .emit 1 (.jumpTo .jumpBy 0), .splice 0 1]

theorem loopCommands_sound :
    (run loopCommands).Sound 0
      ∧ ((run loopCommands).journal 0).map (fun entry => (entry.1, entry.2.op, entry.2.target entry.1))
        = [(0, .push, -1), (9, .push, -1), (18, .push, -1), (27, .push, -1), (36, .set, -1),
          (55, .jumpBy, 9)] := by
  have hdata : (Text.ofString "ab").length < 2 ^ 63 := by decide
  refine ⟨sound_run ?_ 0, by decide⟩
  simpa [loopCommands, Command.Fits, Emission.Fits, Opcode.isRelative] using hdata

end Drafts

end CodeBuffer

end TickScript
