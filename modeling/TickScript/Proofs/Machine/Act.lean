import TickScript.Proofs.Instr
import TickScript.Proofs.Machine.Exec

/-!
# One instruction, read as a whole

The machine fetches an instruction operand by operand. `Exec.act` carries out an instruction that is
already read, `Exec.read` reads one, and `Exec.instruction_eq` says that a step of the machine is the
one behind the other. What is read is what the decoder finds in the same bytes: `Exec.read_of_decode`
is for where an instruction decodes, `Exec.read_of_decode_error` for where none does. Every statement
about a run starts from these two and looks at instructions, never again at the bytes of the code.

The two halves are separate because they fail differently. Reading may run into the end of the code
or into an unknown byte, and then kills the machine without having changed anything but the address
of the next fetch. Acting may fail for reasons that lie in the stacks and the variables. A step
tells these apart by their kill codes, and so do the theorems about steps.

The last address is an exception throughout: behind it the address of the next byte wraps, and
whether a fetch there succeeds is not decided by the length of the code.
-/

namespace TickScript

/-- An operand word of an instruction. -/
def Instr.word (i : Instr) (k : Nat) : Int64 := i.operands[k]?.getD 0

/-- How the machine is killed where an instruction does not decode. -/
def DecodeError.killCode : DecodeError → KillCode
  | .invalidOpcode .. => .invalidOpcode
  | _ => .busFault

namespace Exec

/-- Carries out an instruction that stood at `start` and is already read. -/
def act (start : Int) (i : Instr) : Exec Unit :=
  match i.op with
  | .pushVar => pushVariable (i.word 0)
  | .popVar => do
    let v ← pop
    update (i.word 0) fun old => v.convert old.type
  | .push => modify fun m => { m with stack := (i.word 0).toUInt64 :: m.stack }
  | .call => call start (i.word 0)
  | .jump => jump false fun _ => (i.word 0).toInt
  | .jumpIf => jump true fun _ => (i.word 0).toInt
  | .jumpBy => jump false fun ip => ip + (i.word 0).toInt
  | .jumpIfBy => jump true fun ip => ip + (i.word 0).toInt
  | .compare => do
    let b ← pop
    let a ← pop
    modify fun m => { m with
      compareValue := match Relation.ofByte? (i.word 0).toUInt64.toUInt8 with
        | some relation => relation.holds (a.order b)
        | none => false }
  | .combine => do
    let saved ← popCompare
    modify fun m => { m with
      compareValue :=
        if Connective.ofByte? (i.word 0).toUInt64.toUInt8 = some .or then saved || m.compareValue
        else saved && m.compareValue }
  | .allocate => modify (·.allocate (i.word 2) (.zero ⟨(i.word 1).toUInt64.toUInt8⟩))
  | .free => modify (·.free (i.word 0))
  | .set => update (i.word 0) fun old => ⟨old.type, i.data⟩
  | .kill => kill (i.word 0)
  | op => execute start op

/-! ## Reading, then acting -/

/-- The next operand as the decoder reads it. -/
def fetchOperand (operand : Operand) : Exec Int64 := do
  return Instr.decodeOperand operand (← fetchBytes operand.width.bytes)

/-- The next operands. -/
def fetchOperands : List Operand → Exec (List Int64)
  | [] => return []
  | operand :: rest => do
    let word ← fetchOperand operand
    return word :: (← fetchOperands rest)

/-- The rest of an instruction whose opcode is already read. -/
def fetchInstr (op : Opcode) : Exec Instr := do
  let operands ← fetchOperands op.operands
  let data ←
    if op.hasData then fetchBytes (operands.getLast?.getD 0).toUInt64.toNat else pure []
  return ⟨op, operands, data⟩

theorem bmod_ofNat (n : Nat) :
    Int.bmod (UInt64.ofNat n).toNat 0x10000 = (Int64.ofInt (Int.bmod n 0x10000)).toInt := by
  have hrange : -0x8000 ≤ Int.bmod n 0x10000 ∧ Int.bmod n 0x10000 < 0x8000 := by
    rw [Int.bmod_def]
    split <;> omega
  rw [Int64.toInt_ofInt_of_le (by omega) (by omega), UInt64.toNat_ofNat', Int.bmod_def, Int.bmod_def]
  split <;> split <;> omega

/-- Every operation reads its operands and then acts. -/
theorem execute_eq (start : Int) (op : Opcode) : execute start op = fetchInstr op >>= act start := by
  cases op
  case jumpBy | jumpIfBy =>
    simp only [execute, fetchInstr, fetchOperands, fetchOperand, fetchWord, Opcode.operands,
      Opcode.hasData, Operand.distance, Width.bytes, Instr.decodeOperand, bind_assoc, pure_bind,
      bmod_ofNat]
    rfl
  case set =>
    simp only [execute, fetchInstr, fetchOperands, fetchOperand, fetchWord, fetchId,
      Opcode.operands, Opcode.hasData, Operand.id, Operand.size, Width.bytes, Instr.decodeOperand,
      beq_self_eq_true, if_true, bind_assoc, pure_bind]
    rfl
  all_goals
    simp only [execute, fetchInstr, fetchOperands, fetchOperand, fetchWord, fetchId, fetchByte,
      Opcode.operands, Opcode.hasData, Operand.id, Operand.size, Operand.word, Operand.address,
      Width.bytes, Instr.decodeOperand, bind_assoc, pure_bind]
    rfl

/-- Reads the instruction at the address of the innermost call. -/
def read : Exec Instr := do
  match Opcode.ofByte? (← fetchOpcode) with
  | none => kill .invalidOpcode
  | some op => fetchInstr op

end Exec

/-- The address at which the innermost call stands. -/
def Machine.place (m : Machine) : Int := (m.frames.head?.map (·.ip)).getD 0

/-- An instruction is read first and then carried out. -/
theorem Exec.instruction_eq (m : Machine) : instruction m = (read >>= act m.place) m := by
  simp only [instruction, read, run_bind, run_get]
  cases fetchOpcode m with
  | error stop m' => rfl
  | ok byte m' =>
      simp only
      cases Opcode.ofByte? byte with
      | none => rfl
      | some op =>
          simp only [execute_eq, run_bind]
          rfl

/-! ## The fetch and the decoder -/

namespace Machine

/-- The machine with the innermost call at an address. -/
def goto (m : Machine) (ip : Int) : Machine := m.mapFrame fun f => { f with ip }

/-- A jump changes the innermost frame only. -/
theorem goto_eq {m : Machine} {f : Frame} {rest : List Frame} (h : m.frames = f :: rest) (ip : Int) :
    m.goto ip = { m with frames := { f with ip } :: rest } := by
  simp [goto, mapFrame, h]

@[simp] theorem goto_goto (m : Machine) (ip ip' : Int) : (m.goto ip).goto ip' = m.goto ip' := by
  cases h : m.frames with
  | nil => simp [goto, mapFrame, h]
  | cons f rest => simp [goto, mapFrame, h]

/-- The innermost call runs some code and stands at an offset of it. -/
def Stands (m : Machine) (code : Text) (offset : Nat) : Prop :=
  ∃ f rest, m.frames = f :: rest ∧ f.ip = offset ∧ f.function.code = code

/-- The machine stands in the same code after a jump. -/
theorem Stands.goto {m : Machine} {code : Text} {offset : Nat} (h : m.Stands code offset)
    (offset' : Nat) : (m.goto offset').Stands code offset' := by
  obtain ⟨f, rest, hframes, -, hcode⟩ := h
  exact ⟨{ f with ip := offset' }, rest, by rw [goto_eq hframes], rfl, hcode⟩

/-- Going to where the machine stands is no move. -/
theorem Stands.goto_self {m : Machine} {code : Text} {offset : Nat} (h : m.Stands code offset) :
    m.goto offset = m := by
  obtain ⟨f, rest, hframes, hip, -⟩ := h
  rw [goto_eq hframes, ← hip, ← hframes]

end Machine

namespace Exec

variable {m : Machine} {code : Text} {offset : Nat}

/-- A fetch of bytes that are there. -/
theorem fetchBytes_of_le (h : m.Stands code offset) (count : Nat)
    (hcount : count ≤ (code.drop offset).length) :
    fetchBytes count m = .ok ((code.drop offset).take count) (m.goto (offset + count : Nat)) := by
  obtain ⟨f, rest, hframes, hip, rfl⟩ := h
  have hlen : ¬ ((f.function.code.drop offset).take count).length < count := by
    rw [List.length_take]
    omega
  have hneg : ¬ (offset : Int) < 0 := by omega
  rw [Machine.goto_eq hframes]
  simp only [fetchBytes, run_bind, run_get, hframes, hip, hneg, if_false, Int.toNat_natCast, hlen,
    run_set, run_pure, Int.natCast_add]

/-- A fetch of bytes that are not all there. -/
theorem fetchBytes_of_lt (h : m.Stands code offset) (count : Nat)
    (hcount : (code.drop offset).length < count) :
    fetchBytes count m = .error .killed (m.kill .busFault) := by
  obtain ⟨f, rest, hframes, hip, rfl⟩ := h
  have hlen : ((f.function.code.drop offset).take count).length < count := by
    rw [List.length_take]
    omega
  have hneg : ¬ (offset : Int) < 0 := by omega
  simp only [fetchBytes, run_bind, run_get, hframes, hip, hneg, if_false, Int.toNat_natCast, hlen,
    if_true, run_kill]

/-- Operands are fetched as the decoder reads them. -/
theorem fetchOperands_of_decode {op : Opcode} (operands : List Operand) {words : List Int64}
    {stop : Nat} {tail : Text} (h : m.Stands code offset)
    (hdecode : Instr.decodeOperands op operands offset (code.drop offset) = .ok (words, stop, tail)) :
    fetchOperands operands m = .ok words (m.goto stop) ∧ tail = code.drop stop := by
  induction operands generalizing m offset words with
  | nil =>
      obtain ⟨rfl, rfl, rfl⟩ : [] = words ∧ offset = stop ∧ code.drop offset = tail := by
        simpa [Instr.decodeOperands] using hdecode
      exact ⟨by rw [h.goto_self]; rfl, rfl⟩
  | cons operand operands ih =>
      simp only [Instr.decodeOperands, bind, Except.bind] at hdecode
      split at hdecode
      · cases hdecode
      · next hlong =>
          have hcount : operand.width.bytes ≤ (code.drop offset).length := by
            simp only [List.length_take] at hlong
            omega
          simp only [pure, Except.pure, List.drop_drop] at hdecode
          split at hdecode
          · cases hdecode
          · next rest hrest =>
              obtain ⟨more, stop', tail'⟩ := rest
              obtain ⟨rfl, rfl, rfl⟩ : _ = words ∧ stop' = stop ∧ tail' = tail := by
                simpa using hdecode
              obtain ⟨hfetch, htail⟩ := ih (h.goto (offset + operand.width.bytes)) hrest
              refine ⟨?_, htail⟩
              simp only [fetchOperands, fetchOperand, run_bind, fetchBytes_of_le h _ hcount, run_pure,
                hfetch, Machine.goto_goto]

/-- Where the decoder finds an operand cut off, the fetch is a bus fault. -/
theorem fetchOperands_of_cut {op : Opcode} (operands : List Operand) {e : DecodeError}
    (h : m.Stands code offset)
    (hdecode : Instr.decodeOperands op operands offset (code.drop offset) = .error e) :
    e.killCode = .busFault
      ∧ ∃ stop : Nat, fetchOperands operands m = .error .killed ((m.goto stop).kill .busFault) := by
  induction operands generalizing m offset e with
  | nil => simp [Instr.decodeOperands] at hdecode
  | cons operand operands ih =>
      by_cases hcount : operand.width.bytes ≤ (code.drop offset).length
      · have hlong : ¬ ((code.drop offset).take operand.width.bytes).length < operand.width.bytes := by
          rw [List.length_take]
          omega
        simp only [Instr.decodeOperands, bind, Except.bind, hlong, if_false, pure, Except.pure,
          List.drop_drop] at hdecode
        split at hdecode
        · next hrest =>
            obtain rfl := Except.error.inj hdecode
            obtain ⟨hcode, stop, hfetch⟩ := ih (h.goto (offset + operand.width.bytes)) hrest
            refine ⟨hcode, stop, ?_⟩
            simp only [fetchOperands, fetchOperand, run_bind, fetchBytes_of_le h _ hcount, run_pure,
              hfetch, Machine.goto_goto]
        · cases hdecode
      · have hshort : (code.drop offset).length < operand.width.bytes := by omega
        have hwindow : ((code.drop offset).take operand.width.bytes).length < operand.width.bytes := by
          rw [List.length_take]
          omega
        simp only [Instr.decodeOperands, bind, Except.bind, hwindow, if_true] at hdecode
        obtain rfl := Except.error.inj hdecode
        refine ⟨rfl, offset, ?_⟩
        simp only [fetchOperands, fetchOperand, run_bind, fetchBytes_of_lt h _ hshort, h.goto_self]

/-- What the decoder finds behind an opcode is what is fetched there. -/
theorem fetchInstr_of_decode {op : Opcode} {words : List Int64} {stop : Nat} {tail : Text}
    (h : m.Stands code offset)
    (hwords : Instr.decodeOperands op op.operands offset (code.drop offset) = .ok (words, stop, tail))
    (data : Text) (hdata : if op.hasData then 0 ≤ (words.getLast?.getD 0).toInt
        ∧ data = tail.take (words.getLast?.getD 0).toInt.toNat
        ∧ data.length = (words.getLast?.getD 0).toInt.toNat
      else data = []) :
    fetchInstr op m = .ok ⟨op, words, data⟩ (m.goto (stop + data.length : Nat)) := by
  obtain ⟨hfetch, rfl⟩ := fetchOperands_of_decode op.operands h hwords
  have hstand := h.goto stop
  simp only [fetchInstr, run_bind, hfetch]
  split at hdata
  · next hop =>
      obtain ⟨hcount, rfl, hlen⟩ := hdata
      have hword : (words.getLast?.getD 0).toUInt64.toNat = (words.getLast?.getD 0).toInt.toNat := by
        have hcases := toNat_toUInt64_cases (words.getLast?.getD 0)
        omega
      have hle : (words.getLast?.getD 0).toInt.toNat ≤ (code.drop stop).length := by
        rw [List.length_take] at hlen
        omega
      simp only [hop, if_true, hword, run_bind, fetchBytes_of_le hstand _ hle, run_pure,
        Machine.goto_goto, hlen]
  · next hop =>
      subst hdata
      simp only [hop, Bool.false_eq_true, if_false, run_bind, run_pure, List.length_nil,
        Nat.add_zero]

/-- Trailing bytes that the code does not hold are a bus fault, however many are asked for. -/
theorem fetchInstr_of_cutData {op : Opcode} {words : List Int64} {stop : Nat} {tail : Text}
    (h : m.Stands code offset) (hop : op.hasData = true) (hcode : code.length < 2 ^ 63)
    (hwords : Instr.decodeOperands op op.operands offset (code.drop offset) = .ok (words, stop, tail))
    (hdata : (words.getLast?.getD 0).toInt < 0
      ∨ tail.length < (words.getLast?.getD 0).toInt.toNat) :
    fetchInstr op m = .error .killed ((m.goto stop).kill .busFault) := by
  obtain ⟨hfetch, rfl⟩ := fetchOperands_of_decode op.operands h hwords
  have hshort : (code.drop stop).length < (words.getLast?.getD 0).toUInt64.toNat := by
    have hcases := toNat_toUInt64_cases (words.getLast?.getD 0)
    have hlow := (words.getLast?.getD 0).le_toInt
    rw [List.length_drop] at hdata ⊢
    omega
  simp only [fetchInstr, run_bind, hfetch, hop, if_true]
  simp only [fetchBytes_of_lt (h.goto stop) _ hshort]

/-- The opcode byte at an address other than the last one. -/
theorem fetchOpcode_eq (h : m.Stands code offset) (haddr : offset ≠ 2 ^ 63 - 1) :
    fetchOpcode m = match code.drop offset with
      | [] => .error .killed (m.kill .busFault)
      | b :: _ => .ok b (m.goto (offset + 1 : Nat)) := by
  have hopcode : fetchOpcode m = fetchByte m := by
    obtain ⟨f, rest, hframes, hip, -⟩ := h
    have hne : ¬ f.ip = 0x7FFFFFFFFFFFFFFF := by omega
    simp [fetchOpcode, hframes, hne]
  rw [hopcode]
  cases hdrop : code.drop offset with
  | nil =>
      have hbytes := fetchBytes_of_lt h 1 (by rw [hdrop]; decide)
      simp [fetchByte, fetchWord, hbytes]
  | cons b bytes =>
      have hbytes := fetchBytes_of_le h 1 (by rw [hdrop]; simp)
      simp [fetchByte, fetchWord, hbytes, hdrop, Text.ofLittleEndian]

theorem drop_succ_of_drop {b : UInt8} {bytes : Text} (h : code.drop offset = b :: bytes) :
    bytes = code.drop (offset + 1) := by
  rw [← List.drop_drop, h]
  rfl

theorem lt_length_of_drop {b : UInt8} {bytes : Text} (h : code.drop offset = b :: bytes) :
    offset < code.length := by
  have hlen := congrArg List.length h
  simp only [List.length_drop, List.length_cons] at hlen
  omega

/-- Reading at an address other than the last one: the opcode, then the rest. -/
theorem read_eq (h : m.Stands code offset) (haddr : offset ≠ 2 ^ 63 - 1) :
    read m = match code.drop offset with
      | [] => .error .killed (m.kill .busFault)
      | b :: _ =>
        match Opcode.ofByte? b with
        | none => .error .killed ((m.goto (offset + 1 : Nat)).kill .invalidOpcode)
        | some op => fetchInstr op (m.goto (offset + 1 : Nat)) := by
  simp only [read, run_bind, fetchOpcode_eq h haddr]
  cases code.drop offset with
  | nil => rfl
  | cons b bytes =>
      simp only
      cases Opcode.ofByte? b <;> rfl

/-- Where a whole instruction stands, it is what the machine reads. -/
theorem read_of_decode {i : Instr} {tail : Text} (h : m.Stands code offset)
    (hcode : code.length < 2 ^ 63)
    (hdecode : Instr.decodeHead offset (code.drop offset) = .ok (i, tail)) :
    read m = .ok i (m.goto (offset + i.size : Nat)) := by
  cases hdrop : code.drop offset with
  | nil => simp [Instr.decodeHead, hdrop] at hdecode
  | cons b bytes =>
      have hlen := lt_length_of_drop hdrop
      have hstand := h.goto (offset + 1)
      rw [read_eq h (by omega), hdrop]
      rw [hdrop] at hdecode
      obtain rfl := drop_succ_of_drop hdrop
      cases hop : Opcode.ofByte? b with
      | none => simp [Instr.decodeHead, hop] at hdecode
      | some op =>
          -- the operands are read as the decoder reads them
          cases hwords : Instr.decodeOperands op op.operands (offset + 1) (code.drop (offset + 1)) with
          | error e => simp [Instr.decodeHead, hop, hwords, bind, Except.bind] at hdecode
          | ok words =>
              obtain ⟨words, stop, tail'⟩ := words
              rw [Instr.decodeHead_of_operands hop hwords] at hdecode
              -- The trailing bytes are all that the decoder has still to settle.
              have hfetch : ∃ data, i = ⟨op, words, data⟩
                  ∧ fetchInstr op (m.goto (offset + 1 : Nat))
                    = .ok i (m.goto (stop + data.length : Nat)) := by
                split at hdecode
                · next hhas =>
                    split_ifs at hdecode with hneg hbig hshort
                    obtain ⟨rfl, -⟩ := Prod.mk.inj (Except.ok.inj hdecode)
                    have hfetch := fetchInstr_of_decode hstand hwords
                      (tail'.take (words.getLast?.getD 0).toInt.toNat) (by
                        rw [if_pos hhas]
                        refine ⟨by omega, rfl, ?_⟩
                        rw [List.length_take] at hshort ⊢
                        omega)
                    exact ⟨_, rfl, by rw [hfetch, Machine.goto_goto]⟩
                · next hhas =>
                    obtain ⟨rfl, -⟩ := Prod.mk.inj (Except.ok.inj hdecode)
                    have hfetch := fetchInstr_of_decode hstand hwords []
                      (by simp [hhas])
                    exact ⟨[], rfl, by rw [hfetch, Machine.goto_goto]⟩
              obtain ⟨data, rfl, hfetch⟩ := hfetch
              have hsize : stop + data.length = offset + Instr.size ⟨op, words, data⟩ := by
                obtain ⟨hstop, -⟩ := Instr.stop_of_decodeOperands _ hwords
                simp only [Instr.size, Opcode.operandBytes]
                omega
              simp only [hop, hfetch, hsize]

/-- Where no whole instruction stands, reading kills the machine: the byte there is no opcode, or the
code ends inside the instruction or before it. -/
theorem read_of_decode_error {e : DecodeError} (h : m.Stands code offset)
    (hcode : code.length < 2 ^ 63) (haddr : offset ≠ 2 ^ 63 - 1)
    (hdecode : Instr.decodeHead offset (code.drop offset) = .error e) :
    ∃ stop : Nat, read m = .error .killed ((m.goto stop).kill e.killCode) := by
  rw [read_eq h haddr]
  -- behind the last byte there is no opcode to read
  cases hdrop : code.drop offset with
  | nil =>
      obtain rfl : .pastEnd offset = e := by simpa [Instr.decodeHead, hdrop] using hdecode
      exact ⟨offset, by rw [h.goto_self]; rfl⟩
  | cons b bytes =>
      have hstand := h.goto (offset + 1)
      rw [hdrop] at hdecode
      obtain rfl := drop_succ_of_drop hdrop
      -- the byte may be no opcode
      cases hop : Opcode.ofByte? b with
      | none =>
          obtain rfl : .invalidOpcode b offset = e := by simpa [Instr.decodeHead, hop] using hdecode
          exact ⟨offset + 1, by simp only [hop]; rfl⟩
      | some op =>
          -- From here on every way to fail is a cut.
          have hcut : e.killCode = .busFault
              ∧ ∃ stop : Nat, fetchInstr op (m.goto (offset + 1 : Nat))
                = .error .killed ((m.goto stop).kill .busFault) := by
            cases hwords : Instr.decodeOperands op op.operands (offset + 1)
                (code.drop (offset + 1)) with
            | error e' =>
                obtain ⟨hkill, stop, hfetch⟩ := fetchOperands_of_cut _ hstand hwords
                obtain rfl : e' = e := by
                  simpa [Instr.decodeHead, hop, hwords, bind, Except.bind] using hdecode
                refine ⟨hkill, stop, ?_⟩
                simp only [fetchInstr, run_bind, hfetch, Machine.goto_goto]
            | ok words =>
                obtain ⟨words, stop, tail'⟩ := words
                obtain ⟨-, hbytes⟩ := Instr.stop_of_decodeOperands _ hwords
                have hlen := lt_length_of_drop hdrop
                rw [Instr.decodeHead_of_operands hop hwords] at hdecode
                rw [List.length_drop] at hbytes
                have hfetch (hhas : op.hasData = true) (hdata : (words.getLast?.getD 0).toInt < 0
                    ∨ tail'.length < (words.getLast?.getD 0).toInt.toNat) :=
                  fetchInstr_of_cutData hstand hhas hcode hwords hdata
                simp only [Machine.goto_goto] at hfetch
                split_ifs at hdecode with hhas hneg hbig hshort
                · obtain rfl := Except.error.inj hdecode
                  exact ⟨rfl, stop, hfetch hhas (.inl hneg)⟩
                · obtain rfl := Except.error.inj hdecode
                  exact ⟨rfl, stop, hfetch hhas (.inr (by omega))⟩
                · obtain rfl := Except.error.inj hdecode
                  rw [List.length_take] at hshort
                  exact ⟨rfl, stop, hfetch hhas (.inr (by omega))⟩
          obtain ⟨hkill, stop, hfetch⟩ := hcut
          exact ⟨stop, by simp only [hop, hfetch, hkill]⟩

end Exec

namespace Machine

variable {m : Machine} {code : Text} {offset : Nat}

/-- How a step settles what an instruction did. -/
def settle : EStateM.Result Stop Machine Unit → Except Unaddressable Machine
  | .ok _ m => .ok m
  | .error .killed m => .ok m
  | .error .unaddressable m => .error ⟨m⟩

/-- A step reads an instruction and carries it out. -/
theorem step_eq (m : Machine) : m.step = settle ((Exec.read >>= Exec.act m.place) m) := by
  rw [← Exec.instruction_eq, step]
  split <;> simp_all [settle]

/-- The place of the next fetch is the offset. -/
theorem Stands.place_eq (h : m.Stands code offset) : m.place = offset := by
  obtain ⟨f, rest, hframes, hip, -⟩ := h
  simp [place, hframes, hip]

/-- A step where a whole instruction stands: the instruction acts on the machine that has passed
it. -/
theorem step_of_decode {i : Instr} {tail : Text} (h : m.Stands code offset)
    (hcode : code.length < 2 ^ 63)
    (hdecode : Instr.decodeHead offset (code.drop offset) = .ok (i, tail)) :
    m.step = settle (Exec.act offset i (m.goto (offset + i.size : Nat))) := by
  rw [step_eq, Exec.run_bind, Exec.read_of_decode h hcode hdecode, h.place_eq]

/-- A step where no whole instruction stands kills the machine. -/
theorem step_of_decode_error {e : DecodeError} (h : m.Stands code offset)
    (hcode : code.length < 2 ^ 63) (haddr : offset ≠ 2 ^ 63 - 1)
    (hdecode : Instr.decodeHead offset (code.drop offset) = .error e) :
    ∃ stop : Nat, m.step = .ok ((m.goto stop).kill e.killCode) := by
  obtain ⟨stop, hread⟩ := Exec.read_of_decode_error h hcode haddr hdecode
  exact ⟨stop, by rw [step_eq, Exec.run_bind, hread]; rfl⟩

/-- A step where an instruction of known code stands. -/
theorem step_of_placed {f : Frame} {rest : List Frame} {i : Instr} (hframes : m.frames = f :: rest)
    (hip : f.ip = offset) (hplaced : Placed f.function.code offset [i])
    (haddr : f.function.code.length < 2 ^ 63) :
    m.step = settle (Exec.act offset i
      { m with frames := { f with ip := ((offset + i.size : Nat) : Int) } :: rest }) := by
  obtain ⟨henc, after, hdrop⟩ := hplaced.drop_eq
  have hend := hplaced.offset_add_size_le
  have hdecode : Instr.decodeHead offset (f.function.code.drop offset) = .ok (i, after) := by
    rw [hdrop]
    exact henc.decodeHead offset after (by omega)
  rw [step_of_decode ⟨f, rest, hframes, hip, rfl⟩ haddr hdecode, goto_eq hframes]

end Machine

end TickScript
