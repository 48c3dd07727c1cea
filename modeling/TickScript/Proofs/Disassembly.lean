import TickScript.Disassembly
import TickScript.Listing.Printer
import TickScript.Proofs.Instr

/-!
# Walking over code

Decoding is exact: what is decoded at a place is the instruction whose bytes stand there, so it lies
inside the code, has one word for each operand and as many data bytes as its size operand says
(`decodeHead_inv`). There is one thing that decoding cannot answer, a write whose data would
end behind the last address: `Overruns` says when that happens.

Code is read by a `Walk` that goes from one instruction to the next. Every instruction takes at least
one byte, so a walk ends: at the end of the code, at bytes that are no instruction, or at a write
that overruns. The disassembly and the listing of any code are what this one walk finds.

Three programs read code in this way: the decoder of the machine, the disassembler and the printer
of listings. `Walk` is what they have in common. Existence of a walk to the end of what can be read
(`exists_walk`) is an induction on the bytes left, and each program is shown once to follow any
walk; after that none of them is opened again.

Positions are 64-bit numbers here and the sum of a position and a size can wrap, so `Overruns` is a
condition on numbers alone. Short code can satisfy it, since the size is an operand.
-/

namespace TickScript

namespace Instr

/-! ## What is decoded -/

/-- A 16-bit number read as signed. -/
theorem bmod_short {n : Nat} (h : n < 0x10000) :
    -0x8000 ≤ Int.bmod n 0x10000 ∧ Int.bmod n 0x10000 < 0x8000
      ∧ (Int.bmod n 0x10000 = n ∨ Int.bmod n 0x10000 = n - 0x10000) := by
  rw [Int.bmod_def]
  split <;> omega

/-- The number that an operand word is read from. -/
theorem toNat_decodeOperand (operand : Operand) {window : Text}
    (h : window.length = operand.width.bytes) :
    (decodeOperand operand window).toUInt64.toNat % 256 ^ operand.width.bytes
      = Text.ofLittleEndian window := by
  have hbound := Text.ofLittleEndian_lt window
  rw [h] at hbound
  -- a word that is not negative is its own number
  have hnat (n : Nat) (hn : n < 2 ^ 64) : (Int64.ofNat n).toUInt64.toNat = n := by
    have hcases := toNat_toUInt64_cases (Int64.ofNat n)
    have hlow := (Int64.ofNat n).le_toInt
    rw [Int64.toInt_ofNat', Int.bmod_def] at hcases
    have hsize : Int64.size = 2 ^ 64 := rfl
    rw [hsize] at hcases
    split at hcases <;> omega
  obtain ⟨name, width, signed⟩ := operand
  cases width with
  | bits8 =>
      simp only [Width.bytes] at hbound
      simp only [decodeOperand, Width.bytes]
      rw [hnat _ (by omega), Nat.mod_eq_of_lt hbound]
  | bits16 =>
      simp only [Width.bytes] at hbound
      cases signed with
      | false =>
          simp only [decodeOperand, Width.bytes]
          rw [hnat _ (by omega), Nat.mod_eq_of_lt hbound]
      -- the one operand with a sign: its number is taken modulo the width again
      | true =>
          have hshort := bmod_short (n := Text.ofLittleEndian window) (by omega)
          simp only [decodeOperand, Width.bytes]
          generalize Int.bmod (Text.ofLittleEndian window) 0x10000 = word at hshort ⊢
          have hcases := toNat_toUInt64_cases (Int64.ofInt word)
          rw [Int64.toInt_ofInt_of_le (by omega) (by omega)] at hcases
          omega
  | bits64 =>
      simp only [Width.bytes] at hbound
      simp only [decodeOperand, Width.bytes]
      rw [hnat _ (by omega), Nat.mod_eq_of_lt hbound]

/-- An operand is written with the bytes that it was read from. -/
theorem encodeOperand_decodeOperand (operand : Operand) {window : Text}
    (h : window.length = operand.width.bytes) :
    encodeOperand operand (decodeOperand operand window) = window := by
  rw [encodeOperand, ← Text.littleEndian_mod, toNat_decodeOperand operand h, ← h,
    Text.littleEndian_ofLittleEndian]

/-- What is read from a window is in the range of the operand. -/
theorem holds_decodeOperand (operand : Operand) {window : Text}
    (h : window.length = operand.width.bytes) : operand.Holds (decodeOperand operand window) := by
  have hbound := Text.ofLittleEndian_lt window
  rw [h] at hbound
  obtain ⟨name, width, signed⟩ := operand
  cases width with
  | bits8 =>
      simp only [Width.bytes] at hbound
      simp only [Operand.Holds, decodeOperand]
      rw [Int64.toInt_ofNat_of_lt (by omega)]
      omega
  | bits16 =>
      simp only [Width.bytes] at hbound
      cases signed with
      | false =>
          simp only [Operand.Holds, decodeOperand]
          rw [Int64.toInt_ofNat_of_lt (by omega)]
          omega
      | true =>
          have hshort := bmod_short (n := Text.ofLittleEndian window) (by omega)
          simp only [Operand.Holds, decodeOperand]
          rw [Int64.toInt_ofInt_of_le (by omega) (by omega)]
          exact ⟨hshort.1, hshort.2.1⟩
  | bits64 => trivial

/-- The operands that are decoded are those whose bytes stand in front. -/
theorem decodeOperands_inv {op : Opcode} {operands : List Operand} {offset stop : Nat}
    {bytes tail : Text} {words : List Int64}
    (h : decodeOperands op operands offset bytes = .ok (words, stop, tail)) :
    List.Forall₂ Operand.Holds operands words
      ∧ bytes = (operands.zip words).flatMap (fun pair => encodeOperand pair.1 pair.2) ++ tail := by
  induction operands generalizing offset bytes words with
  | nil =>
      obtain ⟨rfl, -, rfl⟩ : [] = words ∧ offset = stop ∧ bytes = tail := by
        simpa [decodeOperands] using h
      exact ⟨.nil, rfl⟩
  | cons operand operands ih =>
      simp only [decodeOperands, bind, Except.bind, pure, Except.pure] at h
      split at h
      · cases h
      · next hlong =>
          split at h
          · cases h
          · next rest hrest =>
              obtain ⟨more, stop', tail'⟩ := rest
              obtain ⟨rfl, rfl, rfl⟩ : _ = words ∧ stop' = stop ∧ tail' = tail := by simpa using h
              obtain ⟨hholds, hbytes⟩ := ih hrest
              have hwindow : (bytes.take operand.width.bytes).length = operand.width.bytes := by
                have hle := List.length_take_le operand.width.bytes bytes
                omega
              refine ⟨.cons (holds_decodeOperand operand hwindow) hholds, ?_⟩
              simp only [List.zip_cons_cons, List.flatMap_cons, List.append_assoc,
                encodeOperand_decodeOperand operand hwindow, ← hbytes, List.take_append_drop]

/-- Operands are decoded or the code ends inside one of them. -/
theorem decodeOperands_ne_unaddressable (op : Opcode) (operands : List Operand) (offset : Nat)
    (bytes : Text) : decodeOperands op operands offset bytes ≠ .error .unaddressable := by
  induction operands generalizing offset bytes with
  | nil => simp [decodeOperands]
  | cons operand operands ih =>
      simp only [decodeOperands, bind, Except.bind, pure, Except.pure]
      split
      · simp [throw, throwThe, MonadExceptOf.throw]
      · next hlong =>
          cases hrest : decodeOperands op operands (offset + operand.width.bytes)
            (bytes.drop operand.width.bytes) with
          | error e =>
              intro heq
              exact ih _ _ (hrest.trans (by simpa using heq))
          | ok rest => simp

end Instr

theorem Opcode.byte_of_ofByte? {b : UInt8} {op : Opcode} (h : Opcode.ofByte? b = some op) :
    op.byte = b := by
  unfold Opcode.ofByte? at h
  split at h <;> cases h <;> rfl

namespace Instr

/-! ## Writes -/

/-- At an offset, bytes start with a write whose data would end behind the last address. -/
def Overruns (offset : Nat) (bytes : Text) : Prop :=
  ∃ (id size : Int64) (tail : Text),
    bytes = Opcode.set.byte :: (encodeOperand .id id ++ (encodeOperand .size size ++ tail))
      ∧ 0 ≤ size.toInt ∧ 2 ^ 63 ≤ offset + 17 + size.toInt

/-- What the decoder makes of a write, whatever follows its two operands. -/
theorem decodeHead_set (offset : Nat) (id size : Int64) (tail : Text) :
    decodeHead offset
        (Opcode.set.byte :: (encodeOperand .id id ++ (encodeOperand .size size ++ tail)))
      = if size.toInt < 0 then .error (.cutData size.toInt (offset + 17))
        else if 0x8000000000000000 ≤ offset + 17 + size.toInt then .error .unaddressable
        else if (tail.take size.toInt.toNat).length < size.toInt.toNat then
          .error (.cutData size.toInt (offset + 17))
        else .ok (⟨.set, [id, size], tail.take size.toInt.toNat⟩, tail.drop size.toInt.toNat) := by
  have hholds : List.Forall₂ Operand.Holds Opcode.set.operands [id, size] :=
    .cons trivial (.cons trivial .nil)
  have hwords := decodeOperands_encode .set hholds (offset + 1) tail
  have hzip : (Opcode.set.operands.zip [id, size]).flatMap
      (fun pair => encodeOperand pair.1 pair.2) ++ tail
        = encodeOperand .id id ++ (encodeOperand .size size ++ tail) := by
    simp [Opcode.operands]
  rw [hzip] at hwords
  rw [decodeHead_of_operands (Opcode.ofByte?_byte .set) hwords]
  rfl

theorem decodeHead_of_overruns {offset : Nat} {bytes : Text} (h : Overruns offset bytes) :
    decodeHead offset bytes = .error .unaddressable := by
  obtain ⟨id, size, tail, rfl, hsize, hend⟩ := h
  rw [decodeHead_set, if_neg (by omega), if_pos (by omega)]

/-- A write has two operands, and no other instruction has data. -/
theorem set_of_hasData {op : Opcode} {words : List Int64} (h : op.hasData = true)
    (hwords : List.Forall₂ Operand.Holds op.operands words) :
    op = .set ∧ ∃ id size, words = [id, size] := by
  obtain rfl : op = .set := by simpa [Opcode.hasData] using h
  cases hwords with
  | @cons _ id _ _ _ hwords =>
      cases hwords with
      | @cons _ size _ _ _ hwords =>
          cases hwords
          exact ⟨rfl, id, size, rfl⟩

/-! ## Outcomes -/

/-- What becomes of decoding the front of some bytes. -/
inductive Decoding (offset : Nat) (bytes : Text) : Except DecodeError (Instr × Text) → Prop
  /-- An instruction stands there. -/
  | found {i : Instr} {rest : Text} : i.Encodable → bytes = i.encode ++ rest →
    Decoding offset bytes (.ok (i, rest))
  /-- No instruction stands there. -/
  | refused {e : DecodeError} : e ≠ .unaddressable → Decoding offset bytes (.error e)
  | overrun : Overruns offset bytes → Decoding offset bytes (.error .unaddressable)

/-- The one instruction with data: its size operand decides between data within the code, a truncation
and an overrun. -/
theorem decoding_set (offset : Nat) (id size : Int64) (tail : Text) :
    Decoding offset (Opcode.set.byte :: (encodeOperand .id id ++ (encodeOperand .size size ++ tail)))
      (decodeHead offset
        (Opcode.set.byte :: (encodeOperand .id id ++ (encodeOperand .size size ++ tail)))) := by
  rw [decodeHead_set]
  -- the size is a signed word; a negative one is refused
  by_cases hneg : size.toInt < 0
  · rw [if_pos hneg]
    exact .refused (by simp)
  rw [if_neg hneg]
  -- the end of the data lies beyond the last address
  by_cases hend : 0x8000000000000000 ≤ offset + 17 + size.toInt
  · rw [if_pos hend]
    exact .overrun ⟨id, size, tail, rfl, by omega, by omega⟩
  rw [if_neg hend]
  -- the data are not all there
  by_cases hshort : (tail.take size.toInt.toNat).length < size.toInt.toNat
  · rw [if_pos hshort]
    exact .refused (by simp)
  rw [if_neg hshort]
  -- what is left is a write with all of its data
  have hlength : (tail.take size.toInt.toNat).length = size.toInt.toNat := by
    have hle := List.length_take_le size.toInt.toNat tail
    omega
  have hsize : Int64.ofNat size.toInt.toNat = size := by
    apply Int64.toInt.inj
    rw [Int64.toInt_ofNat_of_lt (by omega)]
    omega
  refine .found ⟨.cons trivial (.cons trivial .nil), ?_⟩ ?_
  · rw [if_pos (by rfl), hlength, hsize]
    exact ⟨by omega, rfl⟩
  · simp [encode, Opcode.operands]

/-- The outcomes of decoding are the only ones. -/
theorem decoding (offset : Nat) (bytes : Text) : Decoding offset bytes (decodeHead offset bytes) := by
  cases bytes with
  | nil => exact .refused (by simp)
  | cons b bytes =>
      cases hop : Opcode.ofByte? b with
      | none =>
          simp only [decodeHead, hop]
          exact .refused (by simp)
      | some op =>
          obtain rfl := Opcode.byte_of_ofByte? hop
          cases hwords : decodeOperands op op.operands (offset + 1) bytes with
          | error e =>
              simp only [decodeHead, hop, hwords, bind, Except.bind]
              -- neither opcode nor operands can be unaddressable, only data can
              refine .refused ?_
              rintro rfl
              exact decodeOperands_ne_unaddressable _ _ _ _ hwords
          | ok read =>
              obtain ⟨words, stop, tail⟩ := read
              obtain ⟨hholds, hbytes⟩ := decodeOperands_inv hwords
              by_cases hdata : op.hasData = true
              · -- there is one opcode with data, and the size operand says how many
                obtain ⟨rfl, id, size, rfl⟩ := set_of_hasData hdata hholds
                have hset : bytes = encodeOperand .id id ++ (encodeOperand .size size ++ tail) := by
                  rw [hbytes]
                  simp [Opcode.operands]
                rw [hset]
                exact decoding_set offset id size tail
              · rw [decodeHead_of_operands hop hwords, if_neg hdata]
                refine .found ⟨hholds, ?_⟩ ?_
                · rw [if_neg hdata]
                · simp [encode, hbytes]

/-- What is decoded are the bytes in front, and it fits the layout. -/
theorem decodeHead_inv {offset : Nat} {bytes rest : Text} {i : Instr}
    (h : decodeHead offset bytes = .ok (i, rest)) : i.Encodable ∧ bytes = i.encode ++ rest := by
  have hdecoding := decoding offset bytes
  rw [h] at hdecoding
  cases hdecoding with
  | found hencodable hbytes => exact ⟨hencodable, hbytes⟩

/-- Decoding has no answer exactly where the data of a write would end beyond the range of positions.
-/
theorem decodeHead_eq_unaddressable_iff {offset : Nat} {bytes : Text} :
    decodeHead offset bytes = .error .unaddressable ↔ Overruns offset bytes := by
  refine ⟨fun h => ?_, decodeHead_of_overruns⟩
  have hdecoding := decoding offset bytes
  rw [h] at hdecoding
  cases hdecoding with
  | refused hne => exact absurd rfl hne
  | overrun hoverruns => exact hoverruns

theorem size_pos (i : Instr) : 1 ≤ i.size := by
  rw [size]
  omega

/-- Decoding takes the bytes that the size of the instruction says. -/
theorem length_of_decodeHead {offset : Nat} {bytes rest : Text} {i : Instr}
    (h : decodeHead offset bytes = .ok (i, rest)) : bytes.length = i.size + rest.length := by
  obtain ⟨hencodable, rfl⟩ := decodeHead_inv h
  rw [List.length_append, hencodable.length_encode]

/-- An instruction at an offset of some code, as the opcode table describes it. -/
structure Found (code : Text) (offset : Nat) (i : Instr) : Prop where
  size_pos : 1 ≤ i.size
  inside : offset + i.size ≤ code.length
  /-- One word for each operand. -/
  words : i.operands.length = i.op.operands.length
  /-- As many data bytes as the last operand says, and none behind any other instruction. -/
  data : if i.op.hasData then ∃ size, i.operands.getLast? = some size ∧ size.toInt = i.data.length
    else i.data = []
  bytes : (code.drop offset).take i.size = i.encode

/-- Whatever is decoded at an offset is an instruction that stands there. -/
theorem found_of_decodeAt {code : Text} {offset : Nat} {i : Instr}
    (h : decodeAt code offset = .ok i) : Found code offset i := by
  obtain ⟨tail, hhead⟩ := decodeAt_eq_ok_iff.1 h
  obtain ⟨hencodable, hbytes⟩ := decodeHead_inv hhead
  have hlength := length_of_decodeHead hhead
  have hpos := i.size_pos
  rw [List.length_drop] at hlength
  refine ⟨hpos, by omega, hencodable.words.length_eq.symm, ?_, ?_⟩
  · have hdata := hencodable.data
    split at hdata
    · next hset =>
        rw [if_pos hset]
        exact ⟨_, hdata.2, Int64.toInt_ofNat_of_lt hdata.1⟩
    · next hset =>
        rw [if_neg hset]
        exact hdata
  · rw [hbytes, List.take_left' hencodable.length_encode]

/-! ## Walks -/

/-- Going from an offset over some instructions, each with its offset; `rest` is what is left. -/
inductive Walk : (offset : Nat) → (bytes : Text) → List (Nat × Instr) → (stop : Nat) →
    (rest : Text) → Prop
  | here {offset : Nat} {bytes : Text} : Walk offset bytes [] offset bytes
  | step {offset stop : Nat} {bytes tail rest : Text} {i : Instr} {more : List (Nat × Instr)} :
    decodeHead offset bytes = .ok (i, tail) → Walk (offset + i.size) tail more stop rest →
    Walk offset bytes ((offset, i) :: more) stop rest

/-- Every walk can go on until nothing is left or nothing can be decoded. -/
theorem exists_walk (offset : Nat) (bytes : Text) : ∃ placed stop rest,
    Walk offset bytes placed stop rest ∧ (rest = [] ∨ ∃ e, decodeHead stop rest = .error e) := by
  induction hlength : bytes.length using Nat.strongRecOn generalizing offset bytes with
  | ind length ih =>
      cases hhead : decodeHead offset bytes with
      | error e => exact ⟨[], offset, bytes, .here, .inr ⟨e, hhead⟩⟩
      | ok read =>
          obtain ⟨i, tail⟩ := read
          have hshorter := length_of_decodeHead hhead
          have hpos := i.size_pos
          obtain ⟨more, stop, rest, hwalk, hend⟩ :=
            ih tail.length (by omega) (offset + i.size) tail rfl
          exact ⟨(offset, i) :: more, stop, rest, .step hhead hwalk, hend⟩

/-- The line of an instruction in a disassembly. -/
def line (names : Names) (offset : Nat) (i : Instr) : Text :=
  Text.hexPadded 4 offset ++ "  " ++ i.render names offset ++ "\n"

/-- The line that says why a disassembly ends before the code does. -/
def faultLine (offset : Nat) (e : DecodeError) : Text :=
  Text.hexPadded 4 offset ++ "  " ++ "<" ++ e.message ++ ">\n"

/-- The lines of a walk. -/
def lines (names : Names) (placed : List (Nat × Instr)) : Text :=
  placed.flatMap fun entry => line names entry.1 entry.2

section

variable {offset stop fuel : Nat} {bytes rest : Text} {placed : List (Nat × Instr)}

theorem disassembleFrom_nil (names : Names) : disassembleFrom names fuel offset [] = some [] := by
  cases fuel <;> rfl

/-- The first line of a disassembly. -/
theorem disassembleFrom_cons (names : Names) {i : Instr} {tail : Text}
    (hhead : decodeHead offset bytes = .ok (i, tail)) :
    disassembleFrom names (fuel + 1) offset bytes
      = (disassembleFrom names fuel (offset + i.size) tail).map (line names offset i ++ ·) := by
  have hnonempty : bytes.isEmpty = false := by
    cases bytes with
    | nil => cases hhead
    | cons b bytes => rfl
  rw [disassembleFrom]
  simp only [hnonempty, hhead, Bool.false_eq_true, if_false]
  cases disassembleFrom names fuel (offset + i.size) tail with
  | none => rfl
  | some more => simp [line]

theorem disassembleFrom_error (names : Names) {e : DecodeError} (hfuel : bytes.length ≤ fuel)
    (hrest : bytes ≠ []) (hhead : decodeHead offset bytes = .error e) :
    disassembleFrom names fuel offset bytes
      = if e = .unaddressable then none else some (faultLine offset e) := by
  cases fuel with
  | zero =>
      have hnil : bytes = [] := List.length_eq_zero_iff.1 (by omega)
      exact absurd hnil hrest
  | succ fuel =>
      rw [disassembleFrom]
      simp only [hhead, List.isEmpty_iff, hrest, if_false]
      cases e <;> simp [faultLine]

/-- A disassembly starts with the lines of any walk. -/
theorem Walk.disassembleFrom (hwalk : Walk offset bytes placed stop rest) (names : Names)
    (hfuel : bytes.length ≤ fuel) : ∃ left, rest.length ≤ left
      ∧ Instr.disassembleFrom names fuel offset bytes
        = (Instr.disassembleFrom names left stop rest).map (lines names placed ++ ·) := by
  induction hwalk generalizing fuel with
  | here => exact ⟨fuel, hfuel, by simp [lines]⟩
  | @step offset stop bytes tail rest i more hhead hwalk ih =>
      have hshorter := length_of_decodeHead hhead
      have hpos := i.size_pos
      obtain ⟨fuel, rfl⟩ : ∃ n, fuel = n + 1 := ⟨fuel - 1, by omega⟩
      have hshort : tail.length ≤ fuel := by omega
      obtain ⟨left, hleft, heq⟩ := ih hshort
      refine ⟨left, hleft, ?_⟩
      rw [disassembleFrom_cons names hhead, heq]
      simp [lines, Function.comp_def]

/-- The instructions of a listing start with those of any walk. -/
theorem Walk.placedInstrs (hwalk : Walk offset bytes placed stop rest)
    (hfuel : bytes.length ≤ fuel) : ∃ left, rest.length ≤ left
      ∧ Listing.placedInstrs fuel offset bytes
        = (Listing.placedInstrs left stop rest).map (placed ++ ·) := by
  induction hwalk generalizing fuel with
  | @here offset bytes =>
      refine ⟨fuel, hfuel, ?_⟩
      cases Listing.placedInstrs fuel offset bytes <;> rfl
  | @step offset stop bytes tail rest i more hhead hwalk ih =>
      have hshorter := length_of_decodeHead hhead
      have hpos := i.size_pos
      obtain ⟨fuel, rfl⟩ : ∃ n, fuel = n + 1 := ⟨fuel - 1, by omega⟩
      have hshort : tail.length ≤ fuel := by omega
      obtain ⟨left, hleft, heq⟩ := ih hshort
      have hnonempty : bytes.isEmpty = false := by
        cases bytes with
        | nil => cases hhead
        | cons b bytes => rfl
      refine ⟨left, hleft, ?_⟩
      rw [Listing.placedInstrs]
      simp only [hnonempty, hhead, heq, bind, Except.bind, Bool.false_eq_true, if_false]
      cases Listing.placedInstrs left stop rest <;> rfl

end

/-- What becomes of reading some code from its start to its end. -/
inductive Reading (names : Names) (code : Text) (placed : List (Nat × Instr)) (stop : Nat) :
    (rest : Text) → Prop
  /-- All of it is instructions. -/
  | whole : disassemble names code = some (lines names placed) →
    Listing.placedInstrs code.length 0 code = .ok placed → Reading names code placed stop []
  /-- There is a place at which no instruction stands. -/
  | cut {rest : Text} {e : DecodeError} : decodeHead stop rest = .error e → e ≠ .unaddressable →
    disassemble names code = some (lines names placed ++ faultLine stop e) →
    Listing.placedInstrs code.length 0 code = .error e → Reading names code placed stop rest
  | overrun {rest : Text} : Overruns stop rest → disassemble names code = none →
    Listing.placedInstrs code.length 0 code = .error .unaddressable →
    Reading names code placed stop rest

/-- Reading code always comes to an end. -/
theorem exists_reading (names : Names) (code : Text) : ∃ placed stop rest,
    Walk 0 code placed stop rest ∧ Reading names code placed stop rest := by
  -- both programs follow the one walk as far as it goes
  obtain ⟨placed, stop, rest, hwalk, hend⟩ := exists_walk 0 code
  obtain ⟨left, hleft, hlines⟩ := hwalk.disassembleFrom names (Nat.le_refl code.length)
  obtain ⟨left', hleft', hplaced⟩ := hwalk.placedInstrs (Nat.le_refl code.length)
  refine ⟨placed, stop, rest, hwalk, ?_⟩
  -- it reaches the end of the code
  by_cases hrest : rest = []
  · subst hrest
    refine .whole ?_ ?_
    · rw [disassemble, hlines, disassembleFrom_nil]
      simp
    · rw [hplaced]
      cases left' <;> simp [Listing.placedInstrs, Except.map]
  · -- it stops where nothing can be decoded; the two then say so in their own ways
    obtain ⟨e, hhead⟩ := hend.resolve_left hrest
    rw [disassembleFrom_error names hleft hrest hhead] at hlines
    have hcut : Listing.placedInstrs code.length 0 code = .error e := by
      obtain ⟨left', rfl⟩ : ∃ n, left' = n + 1 := by
        have hpos := List.length_pos_iff.2 hrest
        exact ⟨left' - 1, by omega⟩
      rw [hplaced, Listing.placedInstrs]
      simp [hhead, hrest, bind, Except.bind, Except.map]
    by_cases hunaddressable : e = .unaddressable
    · subst hunaddressable
      refine .overrun (decodeHead_eq_unaddressable_iff.1 hhead) ?_ hcut
      rw [disassemble, hlines]
      rfl
    · refine .cut hhead hunaddressable ?_ hcut
      rw [disassemble, hlines, if_neg hunaddressable]
      simp

/-- A walk over the code comes to a write that overruns. -/
def CodeOverruns (code : Text) : Prop :=
  ∃ placed stop rest, Walk 0 code placed stop rest ∧ Overruns stop rest

theorem Overruns.ne_nil {offset : Nat} {bytes : Text} (h : Overruns offset bytes) : bytes ≠ [] := by
  obtain ⟨id, size, tail, rfl, -⟩ := h
  simp

/-- The disassembler of one function answers unless its walk comes to such a write. -/
theorem disassemble_eq_none_iff (names : Names) (code : Text) :
    disassemble names code = none ↔ CodeOverruns code := by
  constructor
  · intro hnone
    obtain ⟨placed, stop, rest, hwalk, hreading⟩ := exists_reading names code
    cases hreading with
    | whole hlines => simp [hlines] at hnone
    | cut _ _ hlines => simp [hlines] at hnone
    | overrun hoverruns => exact ⟨placed, stop, rest, hwalk, hoverruns⟩
  · rintro ⟨placed, stop, rest, hwalk, hoverruns⟩
    obtain ⟨left, hleft, hlines⟩ := hwalk.disassembleFrom names (Nat.le_refl code.length)
    rw [disassemble, hlines, disassembleFrom_error names hleft hoverruns.ne_nil
      (decodeHead_of_overruns hoverruns)]
    rfl

/-- The printer walks over code as the disassembler does, and stops at the same write. -/
theorem placedInstrs_eq_unaddressable_iff (code : Text) :
    Listing.placedInstrs code.length 0 code = .error .unaddressable ↔ CodeOverruns code := by
  rw [← disassemble_eq_none_iff []]
  obtain ⟨placed, stop, rest, -, hreading⟩ := exists_reading [] code
  cases hreading with
  | whole hlines hplaced => simp [hlines, hplaced]
  | cut _ hne hlines hplaced => simp [hlines, hplaced, hne]
  | overrun _ hlines hplaced => simp [hlines, hplaced]

end Instr

/-! ## Scripts -/

/-- The section is a function whose code overruns. -/
def Section.Overruns (s : Section) : Prop :=
  s.kind = .function ∧ ∃ f, FunctionBody.ofPayload s.data = .ok f ∧ Instr.CodeOverruns f.code

/-- Only sections with code can be without an answer. -/
theorem disassembleSection_eq_none_iff (names : Names) (s : Section) :
    Script.disassembleSection names s = none ↔ s.Overruns := by
  unfold Script.disassembleSection Section.Overruns
  split
  · next hkind =>
      have hfunction : s.kind = .function := hkind
      simp only [hfunction, true_and]
      split
      · next e hpayload => simp [hpayload]
      · next f hpayload =>
          simp only [hpayload, Except.ok.injEq, exists_eq_left', ← Instr.disassemble_eq_none_iff names]
          cases Instr.disassemble names f.code <;> simp
  · next hkind =>
      have hother : s.kind ≠ .function := fun h => hkind h
      simp only [hother, false_and, iff_false]
      split <;> simp

/-- The listing of code has no answer exactly where the walk over it has none. -/
theorem showCode_eq_unaddressable_iff (names : Names) (code : Text) :
    Listing.showCode names code = .error .unaddressable ↔ Instr.CodeOverruns code := by
  rw [← Instr.placedInstrs_eq_unaddressable_iff, Listing.showCode]
  cases Listing.placedInstrs code.length 0 code <;> simp [bind, Except.bind, pure, Except.pure]

theorem showSection_eq_unaddressable_iff (names : Names) (s : Section) :
    Listing.showSection names s = .error (.code .unaddressable) ↔ s.Overruns := by
  unfold Listing.showSection Section.Overruns
  split
  · next hkind =>
      have hfunction : s.kind = .function := hkind
      simp only [hfunction, true_and]
      split
      · next e hpayload => simp [hpayload]
      · next f hpayload =>
          simp only [hpayload, Except.ok.injEq, exists_eq_left',
            ← showCode_eq_unaddressable_iff names]
          cases Listing.showCode names f.code <;> simp
  · next hkind =>
      have hother : s.kind ≠ .function := fun h => hkind h
      simp only [hother, false_and, iff_false]
      split
      · split <;> simp
      · simp

/-- A list is mapped unless one of its elements is refused. -/
theorem mapM_eq_none_iff {α β : Type} (f : α → Option β) (items : List α) :
    items.mapM f = none ↔ ∃ item ∈ items, f item = none := by
  induction items with
  | nil => simp
  | cons item items ih =>
      rw [List.mapM_cons]
      cases hitem : f item with
      | none => simp [hitem]
      | some value =>
          cases hmore : items.mapM f with
          | none => simpa [hitem, hmore] using ih.1 hmore
          | some more =>
              have hnone := mt ih.2 (by simp [hmore])
              simpa [hitem, hmore] using hnone

/-- The first element that is refused decides the error. -/
theorem mapM_eq_error_iff {α β ε : Type} (f : α → Except ε β) (items : List α) (e : ε) :
    items.mapM f = .error e ↔ ∃ before item after, items = before ++ item :: after
      ∧ (∀ other ∈ before, ∃ value, f other = .ok value) ∧ f item = .error e := by
  induction items with
  | nil => simp [pure, Except.pure]
  | cons item items ih =>
      rw [List.mapM_cons]
      constructor
      · -- the first refusal ends the mapping
        intro herror
        cases hitem : f item with
        | error e' =>
            obtain rfl : e' = e := by simpa [hitem, bind, Except.bind] using herror
            exact ⟨[], item, items, rfl, by simp, hitem⟩
        | ok value =>
            have hmore : items.mapM f = .error e := by
              cases hmore : items.mapM f with
              | error e' => simpa [hitem, hmore, bind, Except.bind] using herror
              | ok more => simp [hitem, hmore, bind, Except.bind, pure, Except.pure] at herror
            obtain ⟨before, other, after, rfl, hbefore, hother⟩ := ih.1 hmore
            refine ⟨item :: before, other, after, rfl, ?_, hother⟩
            exact List.forall_mem_cons.2 ⟨⟨value, hitem⟩, hbefore⟩
      · -- what stands before it is mapped without an error
        rintro ⟨before, other, after, heq, hbefore, hother⟩
        cases before with
        | nil =>
            obtain ⟨rfl, rfl⟩ := List.cons.inj heq
            simp [hother, bind, Except.bind]
        | cons first before =>
            obtain ⟨rfl, hitems⟩ := List.cons.inj heq
            obtain ⟨⟨value, hvalue⟩, hrest⟩ := List.forall_mem_cons.1 hbefore
            have hmore := ih.2 ⟨before, other, after, hitems, hrest, hother⟩
            simp [hvalue, hmore, bind, Except.bind]

/-- Decoding is safe on any bytes but for one kind of instruction. At any offset of any code, what is
decoded lies inside the code, has at least one byte, one word for each operand of the opcode table
and exactly the data bytes that its size operand says; and decoding has no answer exactly at a write
whose data would end behind the last address. Reading code from its start always comes to an end, and
a disassembly is the lines of all that was decoded. So a script has no disassembly exactly when the
code of one of its functions comes to such a write, and its listing breaks down exactly when that
happens in a section in front of which every section has a listing. -/
theorem decoding_safe_up_to_overrun (names : Names) (code : Text) (offset : Nat) (s : Script) :
    (∀ i, Instr.decodeAt code offset = .ok i → Instr.Found code offset i)
    ∧ (Instr.decodeAt code offset = .error .unaddressable
      ↔ Instr.Overruns offset (code.drop offset))
    ∧ (∃ placed stop rest, Instr.Walk 0 code placed stop rest
      ∧ Instr.Reading names code placed stop rest)
    ∧ (s.disassemble names = none ↔ ∃ part ∈ s.sections, part.Overruns)
    ∧ (Listing.print names s = .error (.code .unaddressable)
      ↔ ∃ before part after, s.sections = before ++ part :: after
        ∧ (∀ other ∈ before, ∃ text, Listing.showSection names other = .ok text)
        ∧ part.Overruns) := by
  refine ⟨fun i => Instr.found_of_decodeAt, ?_, Instr.exists_reading names code, ?_, ?_⟩
  · rw [Instr.decodeAt_eq_error_iff, Instr.decodeHead_eq_unaddressable_iff]
  · simp only [← disassembleSection_eq_none_iff names, ← mapM_eq_none_iff]
    rw [Script.disassemble]
    cases s.sections.mapM (Script.disassembleSection names) <;> simp
  · simp only [← showSection_eq_unaddressable_iff names, ← mapM_eq_error_iff]
    rw [Listing.print]
    cases s.sections.mapM (Listing.showSection names) <;>
      simp [bind, Except.bind, pure, Except.pure]

/-- A write of as many bytes as there are addresses. -/
def longWrite : Text := Instr.encode ⟨.set, [1, 0x7FFFFFFFFFFFFFFF], []⟩

/-- Decoding has no answer for it, so there is no disassembly of a function that consists of it. -/
example : Instr.decodeAt longWrite 0 = .error .unaddressable
    ∧ Script.disassemble []
      { sections := [⟨.function, 1, FunctionBody.toPayload ⟨0, .void, longWrite⟩⟩] } = none := by
  decide

end TickScript
