import TickScript.Proofs.Listing.RoundTrip

/-!
# Labels land where they are written

The assembler goes over the lines of a function twice: the first pass adds up the sizes that it
predicts and so places the labels, the second one emits the bytes. Whatever the second pass accepts
takes the bytes that the first one predicted (`Assembles.size_eq`), so in both passes a line stands at
the `writtenSpan` of the lines in front of it. From this it follows that a label is the start of the
instruction behind it and that a jump to the label leads there.

A number that is too wide for its operand loses its upper bits. The bytes are then those of the
instruction with the words that were kept, which is the one that is decoded: `Instr.clipped`.

Nothing is assumed about where a listing comes from. The inversion of the assembler therefore has to
deal with whatever it accepts, and that is more than the printer writes: labels at the end, labels
that are never used, operands that are cut, sizes that do not fit. `Gives` inverts a successful run
from the outside inwards, and `Assembles` is what it yields for a single instruction.

The two parts of the result are stated together because each refers to the same spans: an accepted
function has `LabelsLand`, and one in which a jump to a label would need more than it can hold
(`TooFar`) is refused.
-/

namespace TickScript

namespace Instr

/-! ## Words that lose their upper bits -/

/-- The words that are left when each is cut to the width of its operand. -/
def clippedWords (operands : List Operand) (words : List Int64) : List Int64 :=
  (operands.zip words).map fun pair => decodeOperand pair.1 (encodeOperand pair.1 pair.2)

/-- An instruction as it is decoded from its bytes. -/
def clipped (i : Instr) : Instr := { i with operands := clippedWords i.op.operands i.operands }

@[simp] theorem clipped_op (i : Instr) : i.clipped.op = i.op := rfl

@[simp] theorem size_clipped (i : Instr) : i.clipped.size = i.size := rfl

/-- Clipping operands changes no size. -/
theorem sizeAll_map_clipped (code : List Instr) : sizeAll (code.map clipped) = sizeAll code := by
  induction code with
  | nil => rfl
  | cons i code ih => rw [List.map_cons, sizeAll, sizeAll, ih, size_clipped]

/-- A clipped word is in the range of its operand. -/
theorem holds_clippedWords {operands : List Operand} {words : List Int64}
    (h : operands.length = words.length) :
    List.Forall₂ Operand.Holds operands (clippedWords operands words) := by
  induction operands generalizing words with
  | nil => exact .nil
  | cons operand operands ih =>
      cases words with
      | nil => cases h
      | cons word words =>
          exact .cons (holds_decodeOperand operand (length_encodeOperand operand word))
            (ih (Nat.succ.inj h))

/-- Only the bytes within the width are written, so clipping does not change them. -/
theorem encode_clippedWords (operands : List Operand) (words : List Int64) :
    (operands.zip (clippedWords operands words)).flatMap (fun pair => encodeOperand pair.1 pair.2)
      = (operands.zip words).flatMap fun pair => encodeOperand pair.1 pair.2 := by
  induction operands generalizing words with
  | nil => rfl
  | cons operand operands ih =>
      cases words with
      | nil => rfl
      | cons word words =>
          have hword := encodeOperand_decodeOperand operand (length_encodeOperand operand word)
          simp only [clippedWords, List.zip_cons_cons, List.map_cons, List.flatMap_cons, hword]
          congr 1
          exact ih words

theorem encode_clipped (i : Instr) : i.clipped.encode = i.encode := by
  simp only [encode, clipped, encode_clippedWords]

/-- Code and clipped code are the same bytes. -/
theorem encodeAll_map_clipped (code : List Instr) :
    encodeAll (code.map clipped) = encodeAll code := by
  simp only [encodeAll, List.flatMap_map, encode_clipped]

/-- Words that fit are kept. -/
theorem clippedWords_of_holds {operands : List Operand} {words : List Int64}
    (h : List.Forall₂ Operand.Holds operands words) : clippedWords operands words = words := by
  induction h with
  | nil => rfl
  | cons hword _ ih =>
      simp only [clippedWords, List.zip_cons_cons, List.map_cons] at ih ⊢
      rw [decodeOperand_encodeOperand hword, ih]

/-- Where the instructions of a walk start. -/
theorem Walk.start_eq {offset stop : Nat} {bytes rest : Text} {placed : List (Nat × Instr)}
    (h : Walk offset bytes placed stop rest) (k : Nat) :
    (placed[k]?.map (·.1)).getD stop = offset + sizeAll ((placed.map (·.2)).take k) := by
  induction h generalizing k with
  | here => simp [sizeAll]
  | @step offset stop bytes tail rest i more _ hmore ih =>
      cases k with
      | zero => simp [sizeAll]
      | succ k =>
          rw [List.getElem?_cons_succ, ih, List.map_cons, List.take_succ_cons, sizeAll, Nat.add_assoc]

end Instr

namespace Listing

/-! ## What is said of the lines of a function -/

/-- The instructions among some lines. -/
def instrLines : List Line → List WrittenInstr
  | [] => []
  | .label _ _ :: rest => instrLines rest
  | .instr i :: rest => i :: instrLines rest

/-- The bytes that some lines take; an instruction without a size counts for nothing. -/
def writtenSpan : List Line → Nat
  | [] => 0
  | .label _ _ :: rest => writtenSpan rest
  | .instr i :: rest => (writtenSize i).toOption.getD 0 + writtenSpan rest

/-- A jump whose operand is a label. -/
structure WrittenInstr.JumpsTo (i : WrittenInstr) (op : Opcode) (name : Text) : Prop where
  /-- The mnemonic is that of the operation. -/
  operation : operation i = .ok op
  /-- The operation is a jump. -/
  jumps : op.isJump = true
  /-- Its only argument is the label. -/
  argument : i.arguments.map (·.argument) = [.ident name]

/-- Where the instruction behind some lines starts in code that is read as a listing; the end of the
code when there is none. -/
def startBehind (code : Text) (listing : List (Nat × Instr)) (front : List Line) : Nat :=
  (listing[(instrLines front).length]?.map (·.1)).getD code.length

/-- The distances that a relative jump can hold. -/
def InReach (distance : Int) : Prop := -0x8000 ≤ distance ∧ distance < 0x8000

/-- The code of some lines: reading it finds their instructions, and each jump to a label leads to
the start of the instruction behind the line of the label. -/
structure LabelsLand (lines : List Line) (code : Text) (listing : List (Nat × Instr)) : Prop where
  /-- The code decodes into the listing. -/
  reads : Instr.Walk 0 code listing code.length []
  /-- The lines are the instructions of the listing, one for one. -/
  operations : (instrLines lines).map operation = listing.map fun entry => .ok entry.2.op
  /-- Every label that is jumped to is placed. -/
  labels : ∀ i ∈ instrLines lines, ∀ op name, i.JumpsTo op name →
    ∃ front place behind, lines = front ++ .label place name :: behind
  /-- The jump leads to the instruction behind the label, and a relative one reaches it. -/
  lands : ∀ before i after op name front place behind,
    lines = before ++ .instr i :: after → i.JumpsTo op name →
    lines = front ++ .label place name :: behind →
    ∃ offset instr, listing[(instrLines before).length]? = some (offset, instr)
      ∧ instr.target offset = startBehind code listing front
      ∧ (op.isRelative = true →
        InReach (startBehind code listing front - (offset + instr.size : Nat)))

/-- What a declaration is assembled into. A function with a code of addressable size has a listing
in which its labels land. -/
def Item.Lands : Item → Section → Prop
  | .global .., s => s.kind ≠ .function
  | .function _ _ _ _ lines, s => s.kind = .function ∧ ∃ body,
    FunctionBody.ofPayload s.data = .ok body
      ∧ (body.code.length < 2 ^ 63 → ∃ listing, LabelsLand lines body.code listing)

/-- The distance that the operand of a relative jump asks for when the jump ends at an origin. -/
inductive Asks (lines : List Line) (origin : Nat) : Argument → Int → Prop
  | label {front : List Line} {place : Place} {name : Text} {behind : List Line} :
    lines = front ++ .label place name :: behind →
    Asks lines origin (.ident name) (writtenSpan front - origin)
  | number {text : Text} {word : UInt64} : readWord text = .ok word →
    Asks lines origin (.int text) word.toInt64.toInt

/-- Lines with a relative jump that asks for a distance which it cannot hold. -/
def TooFar (lines : List Line) : Prop :=
  ∃ before i after op argument distance,
    lines = before ++ .instr i :: after ∧ operation i = .ok op ∧ op.isRelative = true
      ∧ i.arguments.map (·.argument) = [argument]
      ∧ Asks lines (writtenSpan (before ++ [.instr i])) argument distance ∧ ¬InReach distance

/-- An instruction of a listing stands between other lines. -/
theorem exists_of_mem_instrLines {ks : List Line} {i : WrittenInstr} (h : i ∈ instrLines ks) :
    ∃ before after, ks = before ++ .instr i :: after := by
  induction ks with
  | nil => cases h
  | cons line ks ih =>
      cases line with
      | label place name =>
          obtain ⟨before, after, rfl⟩ := ih h
          exact ⟨.label place name :: before, after, rfl⟩
      | instr other =>
          rcases List.mem_cons.1 h with rfl | h
          · exact ⟨[], ks, rfl⟩
          · obtain ⟨before, after, rfl⟩ := ih h
            exact ⟨.instr other :: before, after, rfl⟩

/-- The predicted sizes of two parts add up. -/
theorem writtenSpan_append (a b : List Line) :
    writtenSpan (a ++ b) = writtenSpan a + writtenSpan b := by
  induction a with
  | nil => exact (Nat.zero_add _).symm
  | cons line a ih =>
      cases line with
      | label place name => exact ih
      | instr i =>
          show _ + writtenSpan (a ++ b) = _ + writtenSpan a + writtenSpan b
          rw [ih, Nat.add_assoc]

/-- Lines take at least what the lines in front take. -/
theorem writtenSpan_le {ks front behind : List Line} (h : ks = front ++ behind) :
    writtenSpan front ≤ writtenSpan ks := by
  rw [h, writtenSpan_append]
  exact Nat.le_add_right _ _

/-! ## Assembling, read backwards -/

/-- Assembling succeeds with a value for some names. -/
def Gives {α : Type} (m : Assembling α) (value : α) : Prop :=
  ∃ used used', m.run used = .ok (value, used')

theorem Gives.pure_inv {α : Type} {a b : α} (h : Gives (Pure.pure a) b) : a = b := by
  obtain ⟨used, used', h⟩ := h
  exact (Prod.mk.inj (Except.ok.inj h)).1

/-- What does not touch the names gives what it gives by itself. -/
theorem Gives.lift_inv {α : Type} {m : Except AssembleError α} {a : α}
    (h : Gives (liftM m) a) : m = .ok a := by
  obtain ⟨used, used', h⟩ := h
  cases m with
  | error e => cases h
  | ok b => rw [(Prod.mk.inj (Except.ok.inj h)).1]

/-- A result of two stages comes from a result of the first. -/
theorem Gives.bind_inv {α β : Type} {m : Assembling α} {f : α → Assembling β} {b : β}
    (h : Gives (m >>= f) b) : ∃ a, Gives m a ∧ Gives (f a) b := by
  obtain ⟨used, used'', h⟩ := h
  rw [StateT.run_bind] at h
  cases hm : m.run used with
  | error e =>
      rw [hm] at h
      cases h
  | ok read =>
      rw [hm] at h
      exact ⟨read.1, ⟨used, read.2, hm⟩, ⟨read.2, used'', h⟩⟩

/-! ## An instruction and its prediction -/

/-- An instruction that is emitted for a line takes the bytes that were predicted for it. -/
structure Assembles (i : WrittenInstr) (instr : Instr) : Prop where
  /-- The operation is that of the mnemonic. -/
  operation : operation i = .ok instr.op
  /-- The size is known before the operands are. -/
  size_eq : writtenSize i = .ok instr.size
  /-- There is a word for each operand. -/
  words : instr.op.operands.length = instr.operands.length
  /-- The data are as long as the last operand says. -/
  data : if instr.op.hasData then (instr.operands.getLast?.getD 0).toUInt64.toNat = instr.data.length
    else instr.data = []

/-- An operation has the mnemonic of the line, in upper case, and as many operands. -/
theorem operation_inv {i : WrittenInstr} {op : Opcode} (h : operation i = .ok op) :
    Text.upper i.mnemonic = Text.ofString op.mnemonic
      ∧ i.arguments.length = op.operands.length + (if op.hasData then 1 else 0) := by
  unfold operation at h
  split at h
  · cases h
  · next found hfound =>
      have hname := List.find?_some hfound
      by_cases hwant : i.arguments.length = found.operands.length + (if found.hasData then 1 else 0)
      · rw [if_neg (not_not_intro hwant)] at h
        obtain rfl := Except.ok.inj h
        exact ⟨(beq_iff_eq.1 hname).symm, hwant⟩
      · rw [if_pos hwant] at h
        cases h

/-- An accepted instruction has an argument for each operand, and one for its data. -/
theorem length_arguments {i : WrittenInstr} {op : Opcode} (h : operation i = .ok op) :
    i.arguments.length = op.operands.length + (if op.hasData then 1 else 0) :=
  (operation_inv h).2

theorem arguments_ne_nil {i : WrittenInstr} {op : Opcode} (h : operation i = .ok op)
    (hdata : op.hasData = true) : i.arguments ≠ [] := by
  intro hnil
  have hcount := length_arguments h
  rw [hnil, if_pos hdata] at hcount
  cases hcount

/-- The predicted size counts the opcode, the operands and the listed data bytes. -/
theorem writtenSize_of_operation {i : WrittenInstr} {op : Opcode} (h : operation i = .ok op) :
    writtenSize i
      = .ok (1 + op.operandBytes + (if op.hasData then (listedBytes i).length else 0)) := by
  rw [writtenSize, h]
  rfl

/-- One byte for each item. -/
theorem length_of_readBytes {place : Place} {items : List Text} {data : Text}
    (h : readBytes place items = .ok data) : data.length = items.length := by
  induction items generalizing data with
  | nil =>
      obtain rfl := Except.ok.inj h
      rfl
  | cons t items ih =>
      simp only [readBytes, complain, bind, Except.bind] at h
      split at h
      · cases h
      · split at h
        · cases h
        · next more hmore =>
            obtain rfl := Except.ok.inj h
            exact congrArg (· + 1) (ih hmore)

/-- The bytes that are emitted are those of a byte list with as many items as the last operand says. -/
theorem dataBytes_inv {i : WrittenInstr} {op : Opcode} {words : List Int64} {data : Text}
    (hlist : i.arguments ≠ []) (h : dataBytes i op words = .ok data) :
    ∃ place items, i.arguments.getLast? = some ⟨place, .bytes items⟩
      ∧ (words.getLast?.getD 0).toUInt64.toNat = items.length ∧ readBytes place items = .ok data := by
  unfold dataBytes at h
  cases hlast : i.arguments.getLast? with
  | none => exact absurd (List.getLast?_eq_none_iff.1 hlast) hlist
  | some list =>
      obtain ⟨place, argument⟩ := list
      simp only [hlast, complain] at h
      split at h
      · next items =>
          split at h
          · cases h
          · next hcount => exact ⟨place, items, rfl, Decidable.not_not.1 hcount, h⟩
      · cases h

/-- The bytes that are emitted are those that were counted, as many as the last operand says. -/
theorem length_of_dataBytes {i : WrittenInstr} {op : Opcode} {words : List Int64} {data : Text}
    (hlist : i.arguments ≠ []) (h : dataBytes i op words = .ok data) :
    data.length = (listedBytes i).length
      ∧ (words.getLast?.getD 0).toUInt64.toNat = data.length := by
  obtain ⟨place, items, hlast, hcount, hread⟩ := dataBytes_inv hlist h
  have hlength := length_of_readBytes hread
  have hlisted : listedBytes i = items := by simp only [listedBytes, hlast, byteTexts]
  rw [hlisted, hlength]
  exact ⟨rfl, hcount⟩

/-- One word for each operand. -/
theorem Gives.length_operandWords {labels : Labels} {origin : Nat}
    {pairs : List (Operand × PlacedArgument)} {words : List Int64}
    (h : Gives (operandWords labels origin pairs) words) : words.length = pairs.length := by
  induction pairs generalizing words with
  | nil =>
      obtain rfl := h.pure_inv
      rfl
  | cons pair pairs ih =>
      obtain ⟨word, -, hrest⟩ := h.bind_inv
      obtain ⟨more, hmore, hwords⟩ := hrest.bind_inv
      obtain rfl := hwords.pure_inv
      exact congrArg (· + 1) (ih hmore)

section

variable {labels : Labels} {address : Nat} {i : WrittenInstr} {instr : Instr}

/-- What the second pass goes through for an instruction. -/
theorem Gives.instruction_inv (h : Gives (instruction labels address i) instr) :
    ∃ size, operation i = .ok instr.op ∧ writtenSize i = .ok size
      ∧ Gives (operandWords labels (address + size) (instr.op.operands.zip i.arguments)) instr.operands
      ∧ (if instr.op.hasData then dataBytes i instr.op instr.operands = .ok instr.data
        else instr.data = []) := by
  obtain ⟨op, hop, h⟩ := h.bind_inv
  obtain ⟨size, hsize, h⟩ := h.bind_inv
  obtain ⟨words, hwords, h⟩ := h.bind_inv
  have hoperation := hop.lift_inv
  have hsize := hsize.lift_inv
  split at h
  · next hdata =>
      obtain ⟨data, hbytes, h⟩ := h.bind_inv
      obtain rfl := h.pure_inv
      refine ⟨size, hoperation, hsize, hwords, ?_⟩
      rw [if_pos hdata]
      exact hbytes.lift_inv
  · next hdata =>
      obtain rfl := h.pure_inv
      refine ⟨size, hoperation, hsize, hwords, ?_⟩
      rw [if_neg hdata]

/-- What the second pass emits for a line has the opcode, the data and the number of operands that the
line has. -/
theorem Gives.assembles (h : Gives (instruction labels address i) instr) : Assembles i instr := by
  obtain ⟨size, hop, hsize, hwords, hdata⟩ := h.instruction_inv
  have hcount := length_arguments hop
  have hlength := hwords.length_operandWords
  rw [List.length_zip, hcount] at hlength
  have hpredicted := writtenSize_of_operation hop
  by_cases hhas : instr.op.hasData = true
  · rw [if_pos hhas] at hdata hcount hlength hpredicted
    obtain ⟨hlisted, hdeclared⟩ := length_of_dataBytes (arguments_ne_nil hop hhas) hdata
    refine ⟨hop, ?_, by omega, ?_⟩
    · rw [hpredicted, ← hlisted]
      rfl
    · rw [if_pos hhas]
      exact hdeclared
  · rw [if_neg hhas] at hdata hcount hlength hpredicted
    refine ⟨hop, ?_, by omega, ?_⟩
    · rw [hpredicted, Instr.size, hdata]
      rfl
    · rw [if_neg hhas]
      exact hdata

/-- What is emitted is decoded as the instruction with the words that were kept. -/
theorem Assembles.encodable (h : Assembles i instr) (hdata : instr.data.length < 2 ^ 63) :
    instr.clipped.Encodable := by
  have hwords := Instr.holds_clippedWords h.words
  refine ⟨hwords, ?_⟩
  have hcount := h.data
  show if instr.op.hasData = true then _ else _
  split
  · next hhas =>
      rw [if_pos hhas] at hcount
      refine ⟨hdata, ?_⟩
      -- both operands of a write are whole words
      obtain ⟨hop, id, size, hkept⟩ := Instr.set_of_hasData hhas hwords
      obtain ⟨id', size', hwritten⟩ : ∃ id' size', instr.operands = [id', size'] := by
        rw [← List.length_eq_two, ← h.words, hop]
        rfl
      have hwhole : List.Forall₂ Operand.Holds instr.op.operands instr.operands := by
        rw [hop, hwritten]
        exact .cons trivial (.cons trivial .nil)
      show (Instr.clippedWords instr.op.operands instr.operands).getLast? = _
      rw [Instr.clippedWords_of_holds hwhole]
      rw [hwritten] at hcount ⊢
      have hsize : size' = Int64.ofNat instr.data.length := by
        rw [← hcount]
        show size' = ⟨UInt64.ofNat size'.toUInt64.toNat⟩
        rw [UInt64.ofNat_toNat]
      exact congrArg some hsize
  · next hhas =>
      rw [if_neg hhas] at hcount
      exact hcount

/-! ## Jumps -/

/-- The operand of a jump. -/
theorem operands_of_isJump {op : Opcode} (h : op.isJump = true) : op.hasData = false
    ∧ (op.isRelative = false ∧ op.operands = [.address]
      ∨ op.isRelative = true ∧ op.operands = [.distance]) := by
  cases op <;> first | exact ⟨rfl, .inl ⟨rfl, rfl⟩⟩ | exact ⟨rfl, .inr ⟨rfl, rfl⟩⟩ | cases h

theorem isJump_of_isRelative {op : Opcode} (h : op.isRelative = true) : op.isJump = true := by
  cases op <;> first | rfl | cases h

theorem toInt_toInt64_ofNat {n : Nat} (h : n < 2 ^ 63) : (UInt64.ofNat n).toInt64.toInt = n := by
  show (Int64.ofNat n).toInt = n
  exact Int64.toInt_ofNat_of_lt h

/-- A jump to a label takes the label's place, or the distance to it. -/
theorem targetWord_ident {a : PlacedArgument} {name : Text} (ha : a.argument = .ident name)
    {origin? : Option Nat} {word : UInt64} (h : targetWord labels origin? a = .ok word) :
    ∃ label, labels.get? name = some label
      ∧ word = origin?.elim (UInt64.ofNat label)
        fun origin => (Int64.ofInt (label - origin)).toUInt64 := by
  simp only [targetWord, ha] at h
  cases hlabel : labels.get? name with
  | none =>
      rw [hlabel] at h
      cases h
  | some label =>
      rw [hlabel] at h
      refine ⟨label, rfl, ?_⟩
      cases origin? <;> exact (Except.ok.inj h).symm

/-- A distance that is accepted can be held. -/
theorem distanceWord_inv {origin : Nat} {a : PlacedArgument} {word : UInt64}
    (h : distanceWord labels origin a = .ok word) :
    targetWord labels (some origin) a = .ok word ∧ InReach word.toInt64.toInt := by
  simp only [distanceWord, bind, Except.bind, complain] at h
  split at h
  · cases h
  · next read hread =>
      split at h
      · cases h
      · next hrange =>
          obtain rfl := Except.ok.inj h
          rw [Bool.or_eq_true, decide_eq_true_eq, decide_eq_true_eq, not_or] at hrange
          exact ⟨hread, by omega, by omega⟩

/-- What the second pass goes through for a relative jump. -/
theorem Gives.distance_inv (h : Gives (instruction labels address i) instr)
    (hrelative : instr.op.isRelative = true) : ∃ a word, i.arguments = [a]
      ∧ targetWord labels (some (address + instr.size)) a = .ok word
      ∧ instr.operands = [word.toInt64] ∧ InReach word.toInt64.toInt := by
  obtain ⟨size, hop, hsize, hwords, -⟩ := h.instruction_inv
  obtain rfl : size = instr.size := Except.ok.inj (hsize.symm.trans h.assembles.size_eq)
  have hjump := isJump_of_isRelative hrelative
  obtain ⟨hdata, ⟨habsolute, -⟩ | ⟨-, hoperands⟩⟩ := operands_of_isJump hjump
  · rw [hrelative] at habsolute
    cases habsolute
  · have hcount := length_arguments hop
    rw [hdata, hoperands] at hcount
    obtain ⟨a, harguments⟩ := List.length_eq_one_iff.1 hcount
    rw [hoperands, harguments] at hwords
    obtain ⟨word, hword, hwords⟩ := hwords.bind_inv
    obtain ⟨more, hmore, hwords⟩ := hwords.bind_inv
    obtain rfl := hmore.pure_inv
    have hword : distanceWord labels (address + instr.size) a = .ok word := Gives.lift_inv hword
    obtain ⟨htarget, hreach⟩ := distanceWord_inv hword
    exact ⟨a, word, harguments, htarget, hwords.pure_inv.symm, hreach⟩

/-- What the second pass goes through for an absolute jump. -/
theorem Gives.address_inv (h : Gives (instruction labels address i) instr)
    (hjump : instr.op.isJump = true) (habsolute : instr.op.isRelative = false) :
    ∃ a word, i.arguments = [a] ∧ targetWord labels none a = .ok word
      ∧ instr.operands = [word.toInt64] := by
  obtain ⟨size, hop, -, hwords, -⟩ := h.instruction_inv
  obtain ⟨hdata, ⟨-, hoperands⟩ | ⟨hrelative, -⟩⟩ := operands_of_isJump hjump
  · have hcount := length_arguments hop
    rw [hdata, hoperands] at hcount
    obtain ⟨a, harguments⟩ := List.length_eq_one_iff.1 hcount
    rw [hoperands, harguments] at hwords
    obtain ⟨word, hword, hwords⟩ := hwords.bind_inv
    obtain ⟨more, hmore, hwords⟩ := hwords.bind_inv
    obtain rfl := hmore.pure_inv
    have hword : targetWord labels none a = .ok word := Gives.lift_inv hword
    exact ⟨a, word, harguments, hword, hwords.pure_inv.symm⟩
  · rw [habsolute] at hrelative
    cases hrelative

/-- A jump to a label leads to where the label is placed. -/
theorem Gives.target_eq (h : Gives (instruction labels address i) instr) {op : Opcode} {name : Text}
    (hjump : i.JumpsTo op name) : ∃ label, labels.get? name = some label
      ∧ (label < 2 ^ 63 → address + instr.size < 2 ^ 63 →
        instr.clipped.target address = label
          ∧ (op.isRelative = true → InReach (label - (address + instr.size : Nat)))) := by
  obtain rfl : instr.op = op :=
    Except.ok.inj (h.assembles.operation.symm.trans hjump.operation)
  obtain ⟨a, harguments, ha⟩ := List.map_eq_singleton_iff.1 hjump.argument
  cases hrelative : instr.op.isRelative with
  | false =>
      -- an address is written as it is
      obtain ⟨b, word, hb, hword, hoperands⟩ := h.address_inv hjump.jumps hrelative
      obtain rfl : a = b := (List.cons.inj (harguments.symm.trans hb)).1
      obtain ⟨label, hlabel, rfl⟩ := targetWord_ident ha hword
      rw [Option.elim_none] at hoperands
      refine ⟨label, hlabel, fun hsmall _ => ⟨?_, fun hrel => by cases hrel⟩⟩
      have hkept : instr.clipped.operands = [(UInt64.ofNat label).toInt64] := by
        show Instr.clippedWords _ _ = _
        obtain ⟨-, ⟨-, haddress⟩ | ⟨hrel, -⟩⟩ := operands_of_isJump hjump.jumps
        · rw [hoperands, haddress]
          exact Instr.clippedWords_of_holds (.cons trivial .nil)
        · rw [hrelative] at hrel
          cases hrel
      simp only [Instr.target, hkept, Instr.clipped_op, hrelative, hjump.jumps, List.head?_cons,
        Option.getD_some, toInt_toInt64_ofNat hsmall]
      rfl
  | true =>
      -- a distance counts from the end of the jump
      obtain ⟨b, word, hb, hword, hoperands, hreach⟩ := h.distance_inv hrelative
      obtain rfl : a = b := (List.cons.inj (harguments.symm.trans hb)).1
      obtain ⟨label, hlabel, rfl⟩ := targetWord_ident ha hword
      refine ⟨label, hlabel, fun hsmall hend => ?_⟩
      have hdistance : (Int64.ofInt (label - (address + instr.size : Nat))).toInt
          = label - (address + instr.size : Nat) :=
        Int64.toInt_ofInt_of_le (by omega) (by omega)
      simp only [Option.elim_some, Int64.toInt64_toUInt64] at hreach hoperands
      have hkept : instr.clipped.operands
          = [Int64.ofInt (label - (address + instr.size : Nat))] := by
        show Instr.clippedWords _ _ = _
        obtain ⟨-, ⟨hrel, -⟩ | ⟨-, hoff⟩⟩ := operands_of_isJump hjump.jumps
        · rw [hrelative] at hrel
          cases hrel
        · rw [hoperands, hoff]
          exact Instr.clippedWords_of_holds (.cons hreach .nil)
      rw [hdistance] at hreach
      refine ⟨?_, fun _ => hreach⟩
      simp only [Instr.target, hkept, Instr.clipped_op, hrelative, List.head?_cons,
        Option.getD_some, hdistance, if_true, Instr.size_clipped]
      omega

end

/-! ## The first pass -/

section

variable {labels labels' : Labels} {address : Nat} {ks : List Line}

/-- A label is new and stands at the address reached so far. -/
theorem placeLabels_label_inv {place : Place} {name : Text}
    (h : placeLabels labels address (.label place name :: ks) = .ok labels') :
    labels.has name = false ∧ placeLabels (labels.set name address) address ks = .ok labels' := by
  rw [placeLabels] at h
  split at h
  · cases h
  · next hnew => exact ⟨Bool.not_eq_true _ ▸ hnew, h⟩

/-- An instruction moves the address by its predicted size. -/
theorem placeLabels_instr_inv {i : WrittenInstr}
    (h : placeLabels labels address (.instr i :: ks) = .ok labels') :
    placeLabels labels (address + writtenSpan [.instr i]) ks = .ok labels' := by
  simp only [placeLabels, bind, Except.bind] at h
  split at h
  · cases h
  · next size hsize =>
      have hspan : writtenSpan [.instr i] = size := by simp [writtenSpan, hsize, Except.toOption]
      rw [hspan]
      exact h

/-- A label that is placed stays where it is. -/
theorem placeLabels_keeps (h : placeLabels labels address ks = .ok labels') {name : Text}
    {label : Nat} (hname : labels.get? name = some label) : labels'.get? name = some label := by
  induction ks generalizing labels address with
  | nil =>
      obtain rfl := Except.ok.inj h
      exact hname
  | cons line ks ih =>
      cases line with
      | label place other =>
          obtain ⟨hnew, hrest⟩ := placeLabels_label_inv h
          have hne : name ≠ other := by
            rintro rfl
            rw [(Table.has_eq_false_iff labels name).1 hnew] at hname
            cases hname
          refine ih hrest ?_
          rw [Table.get?_set_of_ne labels address hne, hname]
      | instr i => exact ih (placeLabels_instr_inv h) hname

/-- A label is placed behind the lines in front of it. -/
theorem placeLabels_places (h : placeLabels labels address ks = .ok labels') {front : List Line}
    {place : Place} {name : Text} {behind : List Line}
    (hks : ks = front ++ .label place name :: behind) :
    labels'.get? name = some (address + writtenSpan front) := by
  induction front generalizing labels address ks with
  | nil =>
      subst hks
      obtain ⟨-, hrest⟩ := placeLabels_label_inv h
      exact placeLabels_keeps hrest (Table.get?_set_self labels name address)
  | cons line front ih =>
      subst hks
      cases line with
      | label place' other => exact ih (placeLabels_label_inv h).2 rfl
      | instr i =>
          rw [ih (placeLabels_instr_inv h) rfl]
          simp only [writtenSpan, Nat.add_zero, Nat.add_assoc]

/-- There are no other labels than those that are written. -/
theorem exists_line_of_label (h : placeLabels labels address ks = .ok labels') {name : Text}
    (hname : labels.get? name = none) {label : Nat} (hlabel : labels'.get? name = some label) :
    ∃ front place behind, ks = front ++ .label place name :: behind := by
  induction ks generalizing labels address with
  | nil =>
      obtain rfl := Except.ok.inj h
      rw [hname] at hlabel
      cases hlabel
  | cons line ks ih =>
      cases line with
      | label place other =>
          by_cases heq : name = other
          · exact ⟨[], place, ks, by rw [heq]; rfl⟩
          · have hrest := (placeLabels_label_inv h).2
            obtain ⟨front, place', behind, rfl⟩ :=
              ih hrest (by rw [Table.get?_set_of_ne labels address heq, hname])
            exact ⟨.label place other :: front, place', behind, rfl⟩
      | instr i =>
          obtain ⟨front, place', behind, rfl⟩ := ih (placeLabels_instr_inv h) hname
          exact ⟨.instr i :: front, place', behind, rfl⟩

end

/-! ## The second pass -/

section

variable {labels : Labels} {address : Nat}

/-- The prediction is right: both passes count the same bytes. -/
theorem Assembles.span_eq {i : WrittenInstr} {instr : Instr} (h : Assembles i instr) :
    writtenSpan [.instr i] = instr.size := by
  simp [writtenSpan, h.size_eq, Except.toOption]

/-- The second pass emits one instruction for a line and goes on behind it. -/
theorem Gives.code_instr_inv {i : WrittenInstr} {ks : List Line} {instrs : List Instr}
    (h : Gives (code labels address (.instr i :: ks)) instrs) :
    ∃ instr rest, instrs = instr :: rest ∧ Gives (instruction labels address i) instr
      ∧ Gives (code labels (address + instr.size) ks) rest := by
  obtain ⟨instr, hinstr, h⟩ := h.bind_inv
  obtain ⟨rest, hrest, h⟩ := h.bind_inv
  exact ⟨instr, rest, h.pure_inv.symm, hinstr, hrest⟩

/-- The emitted instructions are those of the lines, as long as predicted. -/
theorem Gives.code_inv {ks : List Line} {instrs : List Instr}
    (h : Gives (code labels address ks) instrs) :
    (instrLines ks).map operation = instrs.map (fun instr => .ok instr.op)
      ∧ Instr.sizeAll instrs = writtenSpan ks ∧ ∀ instr ∈ instrs, ∃ i, Assembles i instr := by
  induction ks generalizing address instrs with
  | nil =>
      obtain rfl := h.pure_inv
      exact ⟨rfl, rfl, by simp⟩
  | cons line ks ih =>
      cases line with
      | label place name => exact ih h
      | instr i =>
          obtain ⟨instr, rest, rfl, hinstr, hrest⟩ := h.code_instr_inv
          obtain ⟨hoperations, hspan, hall⟩ := ih hrest
          refine ⟨?_, ?_, List.forall_mem_cons.2 ⟨⟨i, hinstr.assembles⟩, hall⟩⟩
          · rw [instrLines, List.map_cons, List.map_cons, hoperations, hinstr.assembles.operation]
          · rw [Instr.sizeAll, hspan, ← hinstr.assembles.span_eq]
            exact (writtenSpan_append [.instr i] ks).symm

/-- Lines one behind the other are emitted one behind the other, the later ones from where the
earlier ones were predicted to end. -/
theorem Gives.code_append_inv {front behind : List Line} {instrs : List Instr}
    (h : Gives (code labels address (front ++ behind)) instrs) :
    ∃ first rest, instrs = first ++ rest ∧ first.length = (instrLines front).length
      ∧ Instr.sizeAll first = writtenSpan front
      ∧ Gives (code labels (address + writtenSpan front) behind) rest := by
  induction front generalizing address instrs with
  | nil => exact ⟨[], instrs, rfl, rfl, rfl, h⟩
  | cons line front ih =>
      cases line with
      | label place name => exact ih h
      | instr i =>
          obtain ⟨instr, more, rfl, hinstr, hmore⟩ := h.code_instr_inv
          obtain ⟨first, rest, rfl, hlength, hsize, hrest⟩ := ih hmore
          have hspan : writtenSpan (.instr i :: front) = instr.size + writtenSpan front := by
            rw [← hinstr.assembles.span_eq]
            exact writtenSpan_append [.instr i] front
          refine ⟨instr :: first, rest, rfl, congrArg (· + 1) hlength, ?_, ?_⟩
          · rw [Instr.sizeAll, hsize, hspan]
          · rw [hspan, ← Nat.add_assoc]
            exact hrest

/-- A line stands where it was predicted to stand. -/
theorem Gives.instruction_of_code {before after ks : List Line} {i : WrittenInstr}
    {instrs : List Instr} (h : Gives (code labels 0 ks) instrs)
    (hks : ks = before ++ .instr i :: after) :
    ∃ first instr rest, instrs = first ++ instr :: rest
      ∧ first.length = (instrLines before).length ∧ Instr.sizeAll first = writtenSpan before
      ∧ Gives (instruction labels (writtenSpan before) i) instr
      ∧ writtenSpan (before ++ [.instr i]) = writtenSpan before + instr.size := by
  subst hks
  obtain ⟨first, more, rfl, hlength, hsize, hmore⟩ := h.code_append_inv
  obtain ⟨instr, rest, rfl, hinstr, -⟩ := hmore.code_instr_inv
  rw [Nat.zero_add] at hinstr
  refine ⟨first, instr, rest, rfl, hlength, hsize, hinstr, ?_⟩
  rw [writtenSpan_append, hinstr.assembles.span_eq]

end

/-! ## Functions -/

section

variable {ks : List Line} {labels : Labels} {instrs : List Instr}
  (hplace : placeLabels [] 0 ks = .ok labels) (hcode : Gives (code labels 0 ks) instrs)

include hplace hcode

/-- No jump of a function that is assembled is too far from its label. -/
theorem not_tooFar (hspan : writtenSpan ks < 2 ^ 63) : ¬TooFar ks := by
  rintro ⟨before, i, after, op, argument, distance, hks, hop, hrelative, hargument, hasks, hfar⟩
  apply hfar
  obtain ⟨first, instr, rest, -, -, -, hinstr, hend⟩ := hcode.instruction_of_code hks
  obtain rfl : instr.op = op := Except.ok.inj (hinstr.assembles.operation.symm.trans hop)
  obtain ⟨a, word, harguments, hword, -, hreach⟩ := hinstr.distance_inv hrelative
  rw [harguments] at hargument
  obtain rfl : a.argument = argument := (List.cons.inj hargument).1
  rw [hend] at hasks
  generalize hargument : a.argument = argument at hasks
  cases hasks with
  | @label front place name behind hlabel =>
      obtain ⟨label, hget, rfl⟩ := targetWord_ident hargument hword
      rw [placeLabels_places hplace hlabel, Nat.zero_add] at hget
      obtain rfl := Option.some.inj hget
      -- both places lie in the code, so their distance is a word
      have hfront := writtenSpan_le hlabel
      have hbefore := writtenSpan_le (hks.trans (List.append_cons before (.instr i) after))
      rw [hend] at hbefore
      simp only [Option.elim_some, Int64.toInt64_toUInt64] at hreach
      rwa [Int64.toInt_ofInt_of_le (by omega) (by omega)] at hreach
  | @number text other hread =>
      simp only [targetWord, hargument, integerWord, hread] at hword
      obtain rfl := Except.ok.inj hword
      exact hreach

theorem exists_labelsLand (hsize : (Instr.encodeAll instrs).length < 2 ^ 63) :
    ∃ listing, listing.map (·.2) = instrs.map Instr.clipped
      ∧ LabelsLand ks (Instr.encodeAll instrs) listing := by
  obtain ⟨hoperations, hspan, hall⟩ := hcode.code_inv
  have hencodable : ∀ instr ∈ instrs.map Instr.clipped, instr.Encodable := by
    rw [List.forall_mem_map]
    intro instr hinstr
    obtain ⟨i, hassembles⟩ := hall instr hinstr
    exact hassembles.encodable (lt_of_le_of_lt (Instr.data_length_le hinstr) hsize)
  have hlength := Instr.length_encodeAll hencodable
  rw [Instr.encodeAll_map_clipped] at hlength
  obtain ⟨listing, hlisting, hwalk⟩ := Instr.Walk.of_encodable hencodable 0 (by omega)
  rw [Nat.zero_add, ← hlength, Instr.encodeAll_map_clipped] at hwalk
  rw [Instr.sizeAll_map_clipped, hspan] at hlength
  -- behind some lines stands what the second pass emits behind them
  have hstart {front behind : List Line} (hks : ks = front ++ behind) :
      startBehind (Instr.encodeAll instrs) listing front = writtenSpan front := by
    rw [hks] at hcode
    obtain ⟨first, rest, rfl, hfirst, hsizeAll, -⟩ := hcode.code_append_inv
    rw [startBehind, hwalk.start_eq, hlisting, Nat.zero_add, List.map_append, ← hfirst,
      List.take_left' (List.length_map _), Instr.sizeAll_map_clipped, hsizeAll]
  refine ⟨listing, hlisting, hwalk, ?_, ?_, ?_⟩
  · -- the operations of the listing are those of the lines
    rw [hoperations]
    have hops := congrArg (List.map fun instr : Instr => (.ok instr.op : Except AssembleError Opcode))
      hlisting
    rw [List.map_map, List.map_map] at hops
    exact hops.symm
  · -- a jump that was accepted names a label of the function
    intro i hi op name hjump
    obtain ⟨before, after, hks⟩ := exists_of_mem_instrLines hi
    obtain ⟨first, instr, rest, -, -, -, hinstr, -⟩ := hcode.instruction_of_code hks
    obtain ⟨label, hlabel, -⟩ := hinstr.target_eq hjump
    exact exists_line_of_label hplace rfl hlabel
  · -- the label was placed at the predicted sizes before it, which are the emitted ones
    intro before i after op name front place behind hks hjump hlabel
    obtain ⟨first, instr, rest, rfl, hfirst, hbefore, hinstr, hend⟩ := hcode.instruction_of_code hks
    obtain ⟨label, hget, hleads⟩ := hinstr.target_eq hjump
    rw [placeLabels_places hplace hlabel, Nat.zero_add] at hget
    obtain rfl := Option.some.inj hget
    have hfront := writtenSpan_le hlabel
    have hbehind := writtenSpan_le (hks.trans (List.append_cons before (.instr i) after))
    rw [hend] at hbehind
    obtain ⟨htarget, hreach⟩ := hleads (by omega) (by omega)
    -- the jump itself stands behind the lines before it
    have hentry : listing[(instrLines before).length]? = some (writtenSpan before, instr.clipped) := by
      have hsnd : (listing.map (·.2))[first.length]? = some instr.clipped := by
        rw [hlisting, List.map_append, List.map_cons,
          List.getElem?_append_right (by rw [List.length_map]), List.length_map, Nat.sub_self]
        rfl
      rw [List.getElem?_map, Option.map_eq_some_iff] at hsnd
      obtain ⟨⟨offset, other⟩, hget, rfl⟩ := hsnd
      have hoffset : offset = writtenSpan before := by
        rw [← hstart hks, startBehind, ← hfirst, hget]
        rfl
      rw [← hfirst, hget, hoffset]
    refine ⟨writtenSpan before, instr.clipped, hentry, ?_, ?_⟩
    · rw [hstart hlabel, htarget]
    · rw [hstart hlabel]
      exact hreach

end

/-! ## Listings -/

theorem not_gives_complain {α : Type} {place : Place} {complaint : Complaint} {value : α} :
    ¬Gives (liftM (complain place complaint : Except AssembleError α)) value := by
  intro h
  cases h.lift_inv

/-- What is assembled for a function: its two passes, and what is in its section. -/
theorem Gives.function_inv {place : Place} {name params returns : Text} {ks : List Line}
    {s : Section} (h : Gives (itemSection (.function place name params returns ks)) s) :
    ∃ labels instrs count, placeLabels [] 0 ks = .ok labels ∧ Gives (code labels 0 ks) instrs
      ∧ s.kind = .function ∧ readUnsigned 8 params = .ok count ∧ Gives (sectionId name) s.id
      ∧ FunctionBody.ofPayload s.data
        = .ok ⟨count.toUInt8, VarType.ofName returns, Instr.encodeAll instrs⟩ := by
  simp only [itemSection] at h
  split at h
  · exact absurd h not_gives_complain
  · next count hcount =>
      split at h
      · exact absurd h not_gives_complain
      · obtain ⟨labels, hlabels, h⟩ := h.bind_inv
        obtain ⟨instrs, hinstrs, h⟩ := h.bind_inv
        obtain ⟨id, hid, h⟩ := h.bind_inv
        obtain rfl := h.pure_inv
        exact ⟨labels, instrs, count, hlabels.lift_inv, hinstrs, rfl, hcount, hid, rfl⟩

/-- What is assembled for a field or a variable. -/
theorem Gives.global_inv {place : Place} {isField : Bool} {name type : Text}
    {value? : Option Argument} {s : Section}
    (h : Gives (itemSection (.global place isField name type value?)) s) :
    ∃ v, s.kind = (if isField then .field else .var) ∧ Gives (sectionId name) s.id
      ∧ s.data = v.toPayload ∧ ∀ a ∈ value?, initialValue (VarType.ofName type) a = .ok v := by
  simp only [itemSection] at h
  split at h
  · exact absurd h not_gives_complain
  · have hsection {value : Value} (h : Gives (do
        let id ← sectionId name
        return ⟨if isField then .field else .var, id, value.toPayload⟩) s) :
        s.kind = (if isField then .field else .var) ∧ Gives (sectionId name) s.id
          ∧ s.data = value.toPayload := by
      obtain ⟨id, hid, h⟩ := h.bind_inv
      obtain rfl := h.pure_inv
      exact ⟨rfl, hid, rfl⟩
    split at h
    · obtain ⟨value, -, h⟩ := h.bind_inv
      obtain ⟨hkind, hid, hdata⟩ := hsection h
      exact ⟨value, hkind, hid, hdata, fun _ heq => absurd heq (Option.not_mem_none _)⟩
    · split at h
      · next a v hvalue =>
          obtain ⟨value, hpure, h⟩ := h.bind_inv
          obtain rfl := hpure.pure_inv
          obtain ⟨hkind, hid, hdata⟩ := hsection h
          exact ⟨_, hkind, hid, hdata, fun _ heq => Option.some.inj heq ▸ hvalue⟩
      · obtain ⟨value, hvalue, -⟩ := h.bind_inv
        exact absurd hvalue not_gives_complain

/-- Every assembled function has its labels where they were written. -/
theorem Gives.lands {item : Item} {s : Section} (h : Gives (itemSection item) s) : item.Lands s := by
  cases item with
  | global place isField name type value? =>
      obtain ⟨v, hkind, -⟩ := h.global_inv
      show s.kind ≠ .function
      rw [hkind]
      cases isField <;> decide
  | function place name params returns ks =>
      obtain ⟨labels, instrs, count, hplace, hcode, hkind, -, -, hbody⟩ := h.function_inv
      refine ⟨hkind, _, hbody, fun hsize => ?_⟩
      obtain ⟨listing, -, hlands⟩ := exists_labelsLand hplace hcode hsize
      exact ⟨listing, hlands⟩

/-- Items are assembled one by one. -/
theorem Gives.itemSections_inv {its : List Item} {sections : List Section}
    (h : Gives (itemSections its) sections) :
    List.Forall₂ (fun item s => Gives (itemSection item) s) its sections := by
  induction its generalizing sections with
  | nil =>
      obtain rfl := h.pure_inv
      exact .nil
  | cons item its ih =>
      obtain ⟨s, hs, h⟩ := h.bind_inv
      obtain ⟨more, hmore, h⟩ := h.bind_inv
      obtain rfl := h.pure_inv
      exact .cons hs (ih hmore)

/-- An accepted listing has been parsed and each of its items assembled. -/
theorem assemble_inv {source : Text} {script : Script} {names : Names}
    (h : assemble source = .ok (script, names)) :
    ∃ its, parse source = .ok its ∧ Gives (itemSections its) script.sections := by
  unfold assemble at h
  split at h
  · cases h
  · next its hparse =>
      refine ⟨its, hparse, [], names, ?_⟩
      cases hrun : (itemSections its).run [] with
      | error e =>
          rw [hrun] at h
          cases h
      | ok result =>
          rw [hrun] at h
          cases h
          rfl

/-- In every listing that is assembled each function has a listing of its own lines in which a jump
to a label leads to the instruction behind the label, or to the end of the code. A listing with a
relative jump that is further from its target than it can tell is not assembled. -/
theorem assembled_labels_land (source : Text) :
    (∀ script names, assemble source = .ok (script, names) →
      ∃ its, parse source = .ok its ∧ List.Forall₂ Item.Lands its script.sections)
    ∧ ∀ its place name params returns ks, parse source = .ok its →
      .function place name params returns ks ∈ its → writtenSpan ks < 2 ^ 63 → TooFar ks →
      ∀ result, assemble source ≠ .ok result := by
  constructor
  · intro script names h
    obtain ⟨its, hparse, hsections⟩ := assemble_inv h
    exact ⟨its, hparse, hsections.itemSections_inv.imp fun _ _ => Gives.lands⟩
  · rintro its place name params returns ks hparse hmem hspan hfar ⟨script, names⟩ h
    obtain ⟨its', hparse', hsections⟩ := assemble_inv h
    obtain rfl : its = its' := Except.ok.inj (hparse.symm.trans hparse')
    obtain ⟨k, hk, hitem⟩ := List.getElem_of_mem hmem
    have hall := hsections.itemSections_inv
    have hs := hall.get hk (hall.length_eq ▸ hk)
    rw [List.get_eq_getElem, hitem] at hs
    obtain ⟨labels, instrs, count, hplace, hcode, -⟩ := hs.function_inv
    exact not_tooFar hplace hcode hspan hfar

/-- A loop with a write in its body and a label behind its last instruction. -/
def countdown : Text :=
  ".func f 0 void\ntop:\n JMPC done\n SET 7 2 [1 2]\n JMPOFF top\ndone:\n"

/-- A jump that asks for more than it can hold. -/
def leap : Text := ".func f 0 void\n JMPOFF 40000\n"

/-- The line of the jump. -/
def leapLine : WrittenInstr := ⟨⟨2, 2⟩, "JMPOFF", [⟨⟨2, 9⟩, .int "40000"⟩]⟩

/-- The lines of a function. -/
def Item.lines : Item → List Line
  | global _ _ _ _ _ => []
  | function _ _ _ _ ks => ks

theorem tooFar_leap : writtenSpan [.instr leapLine] < 2 ^ 63 ∧ TooFar [.instr leapLine] := by
  have hoperation : operation leapLine = .ok .jumpBy := by decide +kernel
  have hnumber : readWord "40000" = .ok 40000 := by decide +kernel
  have hsize := writtenSize_of_operation hoperation
  refine ⟨?_, [], leapLine, [], .jumpBy, .int "40000", _, rfl, hoperation, rfl, rfl,
    .number hnumber, ?_⟩
  · simp only [writtenSpan, hsize]
    decide
  · rw [InReach]
    decide

theorem countdown_lands_leap_refused :
    (∃ script names, assemble countdown = .ok (script, names)
      ∧ ∃ its, parse countdown = .ok its ∧ List.Forall₂ Item.Lands its script.sections)
    ∧ ∀ result, assemble leap ≠ .ok result := by
  constructor
  · have hok : (assemble countdown).isOk = true := by decide +kernel
    cases h : assemble countdown with
    | error e =>
        rw [h] at hok
        cases hok
    | ok result =>
        obtain ⟨script, names⟩ := result
        exact ⟨script, names, rfl, (assembled_labels_land countdown).1 script names h⟩
  · have hlines : (parse leap).toOption.map (·.map Item.lines) = some [[.instr leapLine]] := by
      decide +kernel
    obtain ⟨its, hparsed, hits⟩ := Option.map_eq_some_iff.mp hlines
    obtain ⟨item, rfl, hitem⟩ := List.map_eq_singleton_iff.mp hits
    have hparse : parse leap = .ok [item] := by
      cases h : parse leap with
      | error e =>
          rw [h] at hparsed
          cases hparsed
      | ok its =>
          rw [h] at hparsed
          exact congrArg Except.ok (Option.some.inj hparsed)
    cases item with
    | global => cases hitem
    | function =>
        obtain rfl : _ = [Line.instr leapLine] := hitem
        exact (assembled_labels_land leap).2 _ _ _ _ _ _ hparse (List.mem_singleton_self _)
          tooFar_leap.1 tooFar_leap.2

end Listing

end TickScript
