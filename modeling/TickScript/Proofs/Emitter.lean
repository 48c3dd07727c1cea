import TickScript.Proofs.Instr

/-!
# What the emitters write

The emitters of a code buffer write opcodes, words and bytes one behind the other; the decoder reads
the layout off the table of operations. That the two agree is shown here, emitter by emitter: what is
appended are the bytes of an instruction as the table lays it out. Nothing else about emitted code has
to look at bytes.

Each emitter is compared with `Instr.encode` of the instruction that it is meant to write. The
emitters state the width of every operand by the function that appends it, the table states it as a
list of widths, and none of the definitions refers to the other one; so each of these equations
would fail if an operand were written wider or in another place.
-/

namespace TickScript

namespace Instr

/-- The bytes of an instruction with one operand. -/
theorem encode_withWord {op : Opcode} {operand : Operand} (hop : op.operands = [operand]) (word : Int64) :
    (withWord op word).encode = op.byte :: encodeOperand operand word := by
  simp [encode, withWord, hop]

/-- The bytes of an instruction whose operands are listed. -/
theorem encode_mk {op : Opcode} {operands : List Operand} (hop : op.operands = operands)
    (words : List Int64) (data : Text) : (Instr.mk op words data).encode
      = op.byte :: ((operands.zip words).flatMap fun pair => encodeOperand pair.1 pair.2) ++ data := by
  rw [encode, hop]

theorem toNat_toUInt64_ofNat (n : Nat) : (Int64.ofNat n).toUInt64.toNat = n % 256 ^ 8 := by
  show (UInt64.ofNat n).toNat = _
  rw [UInt64.toNat_ofNat']
  omega

/-- A number as the bytes of a 64-bit operand. -/
theorem encodeOperand_ofNat {operand : Operand} (hwidth : operand.width = .bits64) (n : Nat) :
    encodeOperand operand (Int64.ofNat n) = Text.littleEndian 8 n := by
  rw [encodeOperand, hwidth, toNat_toUInt64_ofNat]
  exact Text.littleEndian_mod 8 n

/-- A byte as the bytes of an 8-bit operand. -/
theorem encodeOperand_byte {operand : Operand} (hwidth : operand.width = .bits8) (value : UInt8) :
    encodeOperand operand (Int64.ofNat value.toNat) = [value] := by
  have hvalue := value.toNat_lt
  have hmod : value.toNat % 256 ^ 8 = value.toNat := Nat.mod_eq_of_lt (by omega)
  rw [encodeOperand, hwidth, toNat_toUInt64_ofNat, hmod]
  simp [Width.bytes, Text.littleEndian, Nat.mod_eq_of_lt hvalue, Nat.toUInt8]

/-- A distance as the bytes of a 16-bit operand. -/
theorem encodeOperand_distance {operand : Operand} (hwidth : operand.width = .bits16)
    (distance : Int64) : encodeOperand operand distance
      = Text.littleEndian 2 (distance.toInt % 0x10000).toNat := by
  have hcases := toNat_toUInt64_cases distance
  have hlow : (distance.toInt % 0x10000).toNat = distance.toUInt64.toNat % 256 ^ 2 := by omega
  rw [encodeOperand, hwidth, hlow]
  exact (Text.littleEndian_mod 2 _).symm

end Instr

namespace CodeBuffer

/-- Relative jumps have one operand, the distance. -/
theorem operands_of_isRelative {op : Opcode} (h : op.isRelative = true) : op.operands = [.distance] := by
  cases op <;> first | rfl | cases h

/-- An operand of a given width stands behind the opcode. -/
theorem exists_operand {op : Opcode} {width : Width} (h : op.operands.map (·.width) = [width]) :
    ∃ operand, op.operands = [operand] ∧ operand.width = width := by
  obtain ⟨operand, hop, hwidth⟩ := List.map_eq_singleton_iff.1 h
  exact ⟨operand, hop, hwidth⟩

/-! ## One instruction -/

/-- An opcode with one word behind it is the instruction with this word as its operand. -/
theorem emitWord_eq (b : CodeBuffer) {op : Opcode} {operand : Operand} (hop : op.operands = [operand])
    (hwidth : operand.width = .bits64) (word : UInt64) :
    b.emitWord op.byte word = b.append (Instr.withWord op word.toInt64).encode := by
  rw [Instr.encode_withWord hop, Instr.encodeOperand, hwidth]
  rfl

/-- An opcode with one byte behind it is the instruction with this byte as its operand. -/
theorem emitByte_eq (b : CodeBuffer) {op : Opcode} {operand : Operand} (hop : op.operands = [operand])
    (hwidth : operand.width = .bits8) (value : UInt8) :
    b.emitByte op.byte value = b.append (Instr.withWord op (Int64.ofNat value.toNat)).encode := by
  rw [Instr.encode_withWord hop, Instr.encodeOperand_byte hwidth, emitByte]

/-- A pushed word stands behind its opcode. -/
theorem emitPush_eq (b : CodeBuffer) (word : UInt64) :
    b.emitPush word = b.append (Instr.push word).encode := by
  have hoperands : Opcode.push.operands = [.word] := rfl
  exact emitWord_eq b hoperands rfl word

/-- The code of a kill is a word too. -/
theorem emitKill_eq (b : CodeBuffer) (code : Int64) :
    b.emitKill code = b.append (Instr.withWord .kill code).encode := by
  have hoperands : Opcode.kill.operands = [⟨"code", .bits64, true⟩] := rfl
  exact emitWord_eq b hoperands rfl code.toUInt64

/-- An allocation is laid out as a size of eight bytes, a type of one byte and an id of eight. -/
theorem emitAllocate_eq (b : CodeBuffer) (size : UInt64) (type : VarType) (id : Id) :
    b.emitAllocate size type id = b.append (Instr.allocate size type id).encode := by
  have hoperands : Opcode.allocate.operands = [.size, ⟨"type", .bits8, false⟩, .id] := rfl
  have htype : Instr.encodeOperand ⟨"type", .bits8, false⟩ (Int64.ofNat type.tag.toNat) = [type.tag] :=
    Instr.encodeOperand_byte rfl type.tag
  have hsize : Instr.encodeOperand .size size.toInt64 = Text.littleEndian 8 size.toNat := rfl
  have hid : Instr.encodeOperand .id id = Text.littleEndian 8 id.toUInt64.toNat := rfl
  rw [Instr.allocate, Instr.encode_mk hoperands, emitAllocate]
  simp only [List.zip_cons_cons, List.zip_nil_left, List.flatMap_cons, List.flatMap_nil, hsize, htype,
    hid, List.append_nil, List.cons_append, List.nil_append]

/-- A write is laid out as an id and a size of eight bytes each, with the data behind them. -/
theorem emitSet_eq (b : CodeBuffer) (id : Id) (data : Text) :
    b.emitSet id data = b.append (Instr.set id data).encode := by
  have hoperands : Opcode.set.operands = [.id, .size] := rfl
  have hsize : Instr.encodeOperand .size (Int64.ofNat data.length) = Text.littleEndian 8 data.length :=
    Instr.encodeOperand_ofNat rfl data.length
  have hid : Instr.encodeOperand .id id = Text.littleEndian 8 id.toUInt64.toNat := rfl
  rw [Instr.set, Instr.encode_mk hoperands, emitSet]
  simp only [List.zip_cons_cons, List.zip_nil_left, List.flatMap_cons, List.flatMap_nil, hsize, hid,
    List.append_nil, List.cons_append, List.append_assoc]

/-- A relative jump that is not too far has its distance behind its opcode. -/
theorem emitJump_eq (b : CodeBuffer) {op : Opcode} (h : op.isRelative = true) (distance : Int64) :
    b.emitJump op.byte distance.toInt
      = if distance.toInt < -0x8000 ∨ 0x8000 ≤ distance.toInt then .error ⟨distance.toInt⟩
        else .ok (b.append (Instr.withWord op distance).encode) := by
  rw [Instr.encode_withWord (operands_of_isRelative h), Instr.encodeOperand_distance rfl, emitJump]
  simp only [Bool.or_eq_true, decide_eq_true_eq]

/-- A jump to an offset goes by the distance from its own end. -/
theorem emitJumpTo_eq (b : CodeBuffer) (op : UInt8) (target : Int64) :
    b.emitJumpTo op target.toInt
      = b.emitJump op (target - Int64.ofNat (b.length + relativeJumpSize)).toInt := by
  have hdistance : Int64.ofInt (target.toInt - (b.length + relativeJumpSize))
      = target - Int64.ofNat (b.length + relativeJumpSize) := by
    rw [Int64.ofInt_sub, Int64.ofInt_toInt, ← Int64.ofInt_eq_ofNat, Int.natCast_add]
  rw [emitJumpTo, hdistance]

/-! ## A literal -/

/-- Words that are pushed one after the other. -/
theorem foldl_emitPush (b : CodeBuffer) (words : List UInt64) :
    words.foldl (fun b word => (b.emitPush word).2) b
      = ⟨b.bytes ++ Instr.encodeAll (words.map Instr.push)⟩ := by
  induction words generalizing b with
  | nil => simp [Instr.encodeAll]
  | cons word words ih =>
      rw [List.foldl_cons, ih, emitPush_eq]
      simp [append, Instr.encodeAll]

/-- A literal is one run of pushes: its words, its size and its type. -/
theorem emitValue_eq (b : CodeBuffer) (type : VarType) (data : Text) :
    b.emitValue type data = b.append (Instr.encodeAll (Instr.literal type data)) := by
  have hsized : (b.emitValue type data).2
      = (packWords data ++ [UInt64.ofNat data.length, UInt64.ofNat type.tag.toNat]).foldl
        (fun b word => (b.emitPush word).2) b := by
    rw [List.foldl_append]
    rfl
  rw [foldl_emitPush, List.map_append] at hsized
  exact Prod.ext rfl hsized

end CodeBuffer

end TickScript
