import Mathlib.Data.List.Forall2
import TickScript.CodeBuffer
import TickScript.Proofs.Word

/-!
# The layout of instructions

An instruction whose operands fit their widths is written without loss: reading the front of its
bytes gives the instruction back and leaves what follows it. `Placed` says that some code stands at
an offset of a byte string; it is the form in which the layout is used, since a piece of code that is
placed has each of its parts placed, one behind the other.

All words are kept as 64-bit numbers with a sign, and an operand of fewer bytes is read with or
without a sign depending on its kind. `Operand.Holds` is the range in which nothing is lost by that.
The law of a list of instructions (`decodeHead` at any offset of their bytes) is an induction on the
list from the law of a single one, with the bytes behind it left general.
-/

namespace TickScript

/-- A word as an unsigned number: the same number, or more by the size of the type. -/
theorem toNat_toUInt64_cases (w : Int64) :
    (0 ≤ w.toInt ∧ (w.toUInt64.toNat : Int) = w.toInt)
      ∨ (w.toInt < 0 ∧ (w.toUInt64.toNat : Int) = w.toInt + 2 ^ 64) := by
  have hbits : w.toInt = (w.toUInt64.toNat : Int).bmod (2 ^ 64) := by
    rw [← Int64.toInt_toBitVec, ← Int64.toNat_toBitVec]
    exact BitVec.toInt_eq_toNat_bmod _
  have hlt := w.toUInt64.toNat_lt
  rw [hbits, Int.bmod_def]
  split <;> omega

/-- The operand can hold a word without loss. -/
def Operand.Holds (operand : Operand) (word : Int64) : Prop :=
  match operand.width, operand.signed with
  | .bits8, _ => 0 ≤ word.toInt ∧ word.toInt < 0x100
  | .bits16, true => -0x8000 ≤ word.toInt ∧ word.toInt < 0x8000
  | .bits16, false => 0 ≤ word.toInt ∧ word.toInt < 0x10000
  | .bits64, _ => True

namespace Instr

/-- An instruction that the layout can hold: one word for each operand, and data only behind an
operand that tells its size. -/
structure Encodable (i : Instr) : Prop where
  words : List.Forall₂ Operand.Holds i.op.operands i.operands
  data : if i.op.hasData then
      i.data.length < 2 ^ 63 ∧ i.operands.getLast? = some (Int64.ofNat i.data.length)
    else i.data = []

/-! ## Operands -/

@[simp] theorem length_encodeOperand (operand : Operand) (word : Int64) :
    (encodeOperand operand word).length = operand.width.bytes := by
  simp [encodeOperand]

/-- Read without a sign, an operand is its word modulo its width. -/
theorem ofLittleEndian_encodeOperand (operand : Operand) (word : Int64) :
    Text.ofLittleEndian (encodeOperand operand word)
      = word.toUInt64.toNat % 256 ^ operand.width.bytes := by
  rw [encodeOperand, Text.ofLittleEndian_littleEndian]

/-- A word in the range of its operand comes back with its sign. -/
theorem decodeOperand_encodeOperand {operand : Operand} {word : Int64} (h : operand.Holds word) :
    decodeOperand operand (encodeOperand operand word) = word := by
  have hcases := toNat_toUInt64_cases word
  apply Int64.toInt.inj
  simp only [decodeOperand, ofLittleEndian_encodeOperand]
  obtain ⟨name, width, signed⟩ := operand
  -- the word is in range, so nothing was cut off; with a sign the upper half stands for the negative
  -- numbers
  cases width with
  | bits8 =>
      simp only [Operand.Holds] at h
      simp only [Width.bytes]
      rw [Int64.toInt_ofNat_of_lt (by omega)]
      omega
  | bits16 =>
      cases signed with
      | false =>
          simp only [Operand.Holds] at h
          simp only [Width.bytes]
          rw [Int64.toInt_ofNat_of_lt (by omega)]
          omega
      | true =>
          simp only [Operand.Holds] at h
          simp only [Width.bytes]
          have hmod : Int.bmod ((word.toUInt64.toNat % 256 ^ 2 : Nat) : Int) 0x10000 = word.toInt := by
            rw [Int.bmod_def]
            split <;> omega
          rw [hmod, Int64.ofInt_toInt]
  | bits64 =>
      have hlt := word.toUInt64.toNat_lt
      simp only [Width.bytes]
      rw [Nat.mod_eq_of_lt (by omega), Int64.toInt_ofNat', Int.bmod_def]
      have hsize : Int64.size = 2 ^ 64 := rfl
      have hlow := word.le_toInt
      have hhigh := word.toInt_lt
      rw [hsize]
      split <;> omega

/-- Operands that stand behind one another come back one after the other, whatever follows them. -/
theorem decodeOperands_encode (op : Opcode) {operands : List Operand} {words : List Int64}
    (h : List.Forall₂ Operand.Holds operands words) (offset : Nat) (rest : Text) :
    decodeOperands op operands offset
        ((operands.zip words).flatMap (fun pair => encodeOperand pair.1 pair.2) ++ rest)
      = .ok (words, offset + operands.foldr (fun o n => o.width.bytes + n) 0, rest) := by
  induction h generalizing offset with
  | nil => simp [decodeOperands]
  | @cons operand word operands words hword _ ih =>
      have htake : (encodeOperand operand word
            ++ ((operands.zip words).flatMap (fun pair => encodeOperand pair.1 pair.2) ++ rest)).take
          operand.width.bytes = encodeOperand operand word :=
        List.take_left' (length_encodeOperand operand word)
      have hdrop : (encodeOperand operand word
            ++ ((operands.zip words).flatMap (fun pair => encodeOperand pair.1 pair.2) ++ rest)).drop
          operand.width.bytes
            = (operands.zip words).flatMap (fun pair => encodeOperand pair.1 pair.2) ++ rest :=
        List.drop_left' (length_encodeOperand operand word)
      simp only [List.zip_cons_cons, List.flatMap_cons, List.append_assoc, decodeOperands, htake,
        hdrop, length_encodeOperand, Nat.lt_irrefl, if_false, ih, bind, Except.bind, pure,
        Except.pure, decodeOperand_encodeOperand hword, List.foldr_cons, Nat.add_assoc]

/-- What has been read is as long as the widths say. -/
theorem stop_of_decodeOperands {op : Opcode} (operands : List Operand) {start stop : Nat}
    {bytes tail : Text} {words : List Int64}
    (h : decodeOperands op operands start bytes = .ok (words, stop, tail)) :
    stop = start + operands.foldr (fun o n => o.width.bytes + n) 0
      ∧ stop + tail.length = start + bytes.length := by
  induction operands generalizing start bytes words tail with
  | nil =>
      obtain ⟨-, rfl, rfl⟩ : [] = words ∧ start = stop ∧ bytes = tail := by
        simpa [decodeOperands] using h
      exact ⟨rfl, rfl⟩
  | cons operand operands ih =>
      simp only [decodeOperands, bind, Except.bind] at h
      split at h
      · cases h
      · next hlong =>
          simp only [pure, Except.pure] at h
          split at h
          · cases h
          · next rest hrest =>
              obtain ⟨more, stop', tail'⟩ := rest
              obtain ⟨-, rfl, rfl⟩ : _ = words ∧ stop' = stop ∧ tail' = tail := by simpa using h
              obtain ⟨hstop, htail⟩ := ih hrest
              rw [List.length_drop] at htail
              rw [List.length_take] at hlong
              rw [List.foldr_cons]
              omega

/-! ## Instructions -/

/-- What is written for operands is as long as their widths together. -/
theorem length_encode_operands {operands : List Operand} {words : List Int64}
    (h : operands.length = words.length) :
    ((operands.zip words).flatMap fun pair => encodeOperand pair.1 pair.2).length
      = operands.foldr (fun o n => o.width.bytes + n) 0 := by
  induction operands generalizing words with
  | nil => rfl
  | cons operand operands ih =>
      cases words with
      | nil => simp at h
      | cons word words =>
          simp only [List.zip_cons_cons, List.flatMap_cons, List.length_append,
            length_encodeOperand, List.foldr_cons]
          rw [ih (by simpa using h)]

/-- An instruction takes the bytes that its size says. -/
theorem Encodable.length_encode {i : Instr} (h : i.Encodable) : i.encode.length = i.size := by
  have hlen := length_encode_operands h.words.length_eq
  simp only [encode, List.length_append, List.length_cons, hlen, size, Opcode.operandBytes]
  omega

/-- What the decoder makes of an opcode and its operands. -/
theorem decodeHead_of_operands {offset : Nat} {b : UInt8} {bytes : Text} {op : Opcode} {words : List Int64}
    {stop : Nat} {tail : Text} (hop : Opcode.ofByte? b = some op)
    (hwords : decodeOperands op op.operands (offset + 1) bytes = .ok (words, stop, tail)) :
    decodeHead offset (b :: bytes) =
      if op.hasData then
        if (words.getLast?.getD 0).toInt < 0 then
          .error (.cutData (words.getLast?.getD 0).toInt stop)
        else if 0x8000000000000000 ≤ stop + (words.getLast?.getD 0).toInt then .error .unaddressable
        else if (tail.take (words.getLast?.getD 0).toInt.toNat).length
            < (words.getLast?.getD 0).toInt.toNat then
          .error (.cutData (words.getLast?.getD 0).toInt stop)
        else .ok (⟨op, words, tail.take (words.getLast?.getD 0).toInt.toNat⟩,
          tail.drop (words.getLast?.getD 0).toInt.toNat)
      else .ok (⟨op, words, []⟩, tail) := by
  simp only [decodeHead, hop, hwords, bind, Except.bind]
  split
  · split
    · rfl
    · split
      · rfl
      · split <;> rfl
  · rfl

/-- Reading the front of an instruction's bytes gives the instruction back. -/
theorem Encodable.decodeHead {i : Instr} (h : i.Encodable) (offset : Nat) (rest : Text)
    (haddr : offset + i.size < 2 ^ 63) :
    decodeHead offset (i.encode ++ rest) = .ok (i, rest) := by
  obtain ⟨op, operands, data⟩ := i
  have hwords := decodeOperands_encode op h.words (offset + 1) (data ++ rest)
  have hdata := h.data
  simp only [size] at haddr
  simp only [encode, List.cons_append, List.append_assoc, Instr.decodeHead, Opcode.ofByte?_byte,
    bind, Except.bind] at hwords ⊢
  rw [hwords]
  cases hop : op.hasData with
  | false =>
      simp only [hop, Bool.false_eq_true, if_false] at hdata
      subst hdata
      simp [pure, Except.pure]
  | true =>
      simp only [hop, if_true] at hdata
      obtain ⟨hsize, hlast⟩ := hdata
      have hcount : (Int64.ofNat data.length).toInt = data.length := Int64.toInt_ofNat_of_lt hsize
      have hstop : offset + 1 + op.operandBytes + data.length < 2 ^ 63 := by omega
      simp only [Opcode.operandBytes] at hstop
      simp only [hlast, Option.getD_some, hcount, Int.toNat_natCast, List.take_left,
        List.drop_left, Nat.lt_irrefl, if_true, if_false, pure, Except.pure]
      rw [if_neg (by omega), if_neg (by omega)]

theorem decodeAt_natCast (code : Text) (offset : Nat) :
    decodeAt code offset = (Instr.decodeHead offset (code.drop offset)).map (·.1) := by
  have hneg : ¬ (offset : Int) < 0 := by omega
  simp only [decodeAt, hneg, if_false, Int.toNat_natCast]

/-- Decoding at an offset looks at what stands from there on. -/
theorem decodeAt_eq_ok_iff {code : Text} {offset : Nat} {i : Instr} :
    decodeAt code offset = .ok i
      ↔ ∃ tail, Instr.decodeHead offset (code.drop offset) = .ok (i, tail) := by
  rw [decodeAt_natCast]
  cases Instr.decodeHead offset (code.drop offset) with
  | error e => simp [Except.map]
  | ok found => simp [Except.map, Prod.ext_iff]

theorem decodeAt_eq_error_iff {code : Text} {offset : Nat} {e : DecodeError} :
    decodeAt code offset = .error e
      ↔ Instr.decodeHead offset (code.drop offset) = .error e := by
  rw [decodeAt_natCast]
  cases Instr.decodeHead offset (code.drop offset) <;> simp [Except.map]

/-- An instruction is only found at an address that is not negative. -/
theorem nonneg_of_decodeAt {code : Text} {address : Int} {i : Instr}
    (h : decodeAt code address = .ok i) : ∃ offset : Nat, address = offset := by
  refine Int.eq_ofNat_of_zero_le (Int.not_lt.1 fun hneg => ?_)
  rw [decodeAt, if_pos hneg] at h
  cases h

/-! ## Sequences -/

@[simp] theorem sizeAll_append (a b : List Instr) : sizeAll (a ++ b) = sizeAll a + sizeAll b := by
  induction a with
  | nil => simp [sizeAll]
  | cons i a ih => simp only [List.cons_append, sizeAll, ih]; omega

@[simp] theorem encodeAll_append (a b : List Instr) :
    encodeAll (a ++ b) = encodeAll a ++ encodeAll b := by
  simp [encodeAll]

/-- The bytes of code are as many as its instructions take. -/
theorem length_encodeAll {code : List Instr} (h : ∀ i ∈ code, i.Encodable) :
    (encodeAll code).length = sizeAll code := by
  induction code with
  | nil => rfl
  | cons i code ih =>
      have hi := (h i (by simp)).length_encode
      have hcode := ih fun j hj => h j (by simp [hj])
      simp only [encodeAll, List.flatMap_cons, List.length_append, sizeAll, hi] at hcode ⊢
      omega

/-- The data of an instruction is a part of the code. -/
theorem data_length_le {i : Instr} {code : List Instr} (h : i ∈ code) :
    i.data.length ≤ (encodeAll code).length := by
  obtain ⟨before, after, rfl⟩ := List.append_of_mem h
  simp only [encodeAll, List.flatMap_append, List.flatMap_cons, encode, List.length_append,
    List.length_cons]
  omega

/-! ## The shapes that code is made of -/

/-- Without operands nothing can be out of range. -/
theorem encodable_plain {op : Opcode} (h : op.operands = []) : (plain op).Encodable := by
  have hdata : op.hasData = false := by
    cases op <;> first | rfl | simp [Opcode.operands] at h
  exact ⟨by simp [plain, h], by simp [plain, hdata]⟩

/-- One operand in range is enough. -/
theorem encodable_withWord {op : Opcode} {operand : Operand} {word : Int64}
    (hop : op.operands = [operand]) (hword : operand.Holds word) : (withWord op word).Encodable := by
  have hdata : op.hasData = false := by
    cases op <;> first | rfl | simp [Opcode.operands] at hop
  exact ⟨by simp [withWord, hop, hword], by simp [withWord, hdata]⟩

/-- Any word can be pushed. -/
theorem encodable_push (word : UInt64) : (push word).Encodable :=
  encodable_withWord rfl trivial

/-- The code of a literal pushes whole words, so it can be written for any data. -/
theorem encodable_literal (type : VarType) (data : Text) : ∀ i ∈ literal type data, i.Encodable := by
  intro i hi
  simp only [literal, List.mem_append, List.mem_map, List.mem_pair] at hi
  rcases hi with ⟨word, -, rfl⟩ | rfl | rfl <;> exact encodable_push _

theorem toInt_byte (b : UInt8) : (Int64.ofNat b.toNat).toInt = b.toNat := by
  have hb := b.toNat_lt
  exact Int64.toInt_ofNat_of_lt (by omega)

theorem encodable_compare (relation : Relation) : (compare relation).Encodable := by
  refine encodable_withWord rfl ?_
  have hb := relation.byte.toNat_lt
  simp only [Operand.Holds, toInt_byte]
  omega

theorem encodable_combine (connective : Connective) : (combine connective).Encodable := by
  refine encodable_withWord rfl ?_
  have hb := connective.byte.toNat_lt
  simp only [Operand.Holds, toInt_byte]
  omega

/-- The type is one byte, size and id are whole words. -/
theorem encodable_allocate (size : UInt64) (type : VarType) (id : Id) :
    (allocate size type id).Encodable := by
  have hb := type.tag.toNat_lt
  have hholds : Operand.Holds ⟨"type", .bits8, false⟩ (Int64.ofNat type.tag.toNat) := by
    simp only [Operand.Holds, toInt_byte]
    omega
  refine ⟨.cons trivial (.cons hholds (.cons trivial .nil)), ?_⟩
  simp [allocate, Opcode.hasData]

/-- Data shorter than the positive range can be written, as their length is an operand. -/
theorem encodable_set {id : Id} {data : Text} (h : data.length < 2 ^ 63) :
    (set id data).Encodable :=
  ⟨.cons trivial (.cons trivial .nil), by rw [if_pos (by rfl)]; exact ⟨h, rfl⟩⟩

/-- A relative jump that is not refused has its distance as its operand. -/
theorem relativeJump_eq_ok {op : Opcode} {distance : Int} {i : Instr}
    (h : relativeJump op distance = .ok i) :
    i = withWord op (Int64.ofInt distance) ∧ (Int64.ofInt distance).toInt = distance
      ∧ -0x8000 ≤ distance ∧ distance < 0x8000 := by
  simp only [relativeJump] at h
  split at h
  · cases h
  · next hrange =>
      simp only [Bool.or_eq_true, decide_eq_true_eq, not_or] at hrange
      obtain rfl := Except.ok.inj h
      exact ⟨rfl, Int64.toInt_ofInt_of_le (by omega) (by omega), by omega, by omega⟩

end Instr

/-! ## Code at a place -/

/-- Some instructions stand at an offset of a byte string, each of them within the layout. -/
def Placed (bytes : Text) (offset : Nat) (code : List Instr) : Prop :=
  (∀ i ∈ code, i.Encodable) ∧
    ∃ before after, bytes = before ++ Instr.encodeAll code ++ after ∧ before.length = offset

namespace Placed

variable {bytes : Text} {offset : Nat}

/-- Code stands at the start of its own bytes. -/
theorem whole {code : List Instr} (h : ∀ i ∈ code, i.Encodable) :
    Placed (Instr.encodeAll code) 0 code :=
  ⟨h, [], [], by simp, rfl⟩

/-- The front of placed code is placed where it is. -/
theorem left {a b : List Instr} (h : Placed bytes offset (a ++ b)) : Placed bytes offset a := by
  obtain ⟨henc, before, after, rfl, hlen⟩ := h
  exact ⟨fun i hi => henc i (by simp [hi]), before, Instr.encodeAll b ++ after, by simp, hlen⟩

/-- The rest is placed behind it. -/
theorem right {a b : List Instr} (h : Placed bytes offset (a ++ b)) :
    Placed bytes (offset + Instr.sizeAll a) b := by
  obtain ⟨henc, before, after, rfl, hlen⟩ := h
  have ha := Instr.length_encodeAll fun i hi => henc i (List.mem_append_left b hi)
  refine ⟨fun i hi => henc i (by simp [hi]), before ++ Instr.encodeAll a, after, by simp, ?_⟩
  rw [List.length_append, hlen, ha]

theorem head {i : Instr} {code : List Instr} (h : Placed bytes offset (i :: code)) :
    Placed bytes offset [i] :=
  left (b := code) h

/-- Behind its first instruction placed code goes on. -/
theorem tail {i : Instr} {code : List Instr} (h : Placed bytes offset (i :: code)) :
    Placed bytes (offset + i.size) code := by
  have hright := right (a := [i]) h
  simpa [Instr.sizeAll] using hright

/-- The bytes from the offset on start with those of the first instruction. -/
theorem drop_eq {i : Instr} (h : Placed bytes offset [i]) :
    i.Encodable ∧ ∃ after, bytes.drop offset = i.encode ++ after := by
  obtain ⟨henc, before, after, rfl, hlen⟩ := h
  refine ⟨henc i (by simp), after, ?_⟩
  rw [List.append_assoc, List.drop_left' hlen]
  simp [Instr.encodeAll]

/-- A placed instruction ends within the bytes. -/
theorem offset_add_size_le {i : Instr} (h : Placed bytes offset [i]) :
    offset + i.size ≤ bytes.length := by
  obtain ⟨henc, before, after, rfl, hlen⟩ := h
  have hsize := (henc i (by simp)).length_encode
  simp [Instr.encodeAll, hsize, hlen]

end Placed

end TickScript
