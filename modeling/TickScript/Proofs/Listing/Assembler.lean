import Mathlib.Tactic.IntervalCases
import TickScript.Listing.Assembler
import TickScript.Proofs.Listing.Parser
import TickScript.Proofs.Listing.Printer
import TickScript.Proofs.Stmt.Rendering
import TickScript.Proofs.Table

/-!
# What the assembler makes of the lines of a listing

Assembling carries the names along that a listing uses, but they decide nothing: `Reads` says that a
part of a listing stands for a value whatever names came before. Every operand that is written for a
word reads as the word. For jumps this rests on the labels, which the first pass places: it goes over
the same instructions as the printer, so a label is placed where the printer put it, and as different
addresses have different labels none of them is placed twice.

`Reads` and its three laws mirror the monad of the assembler, so the proof that a written function
is read back has the shape of the assembler itself: operands, then an instruction, then lines, then
the function. What is assumed of labels is collected in `Labelled`; it is established by the first
pass and used by the second one, and it is the only thing that the two passes share.

A listing need not have been printed for generated code. The instructions are arbitrary, as long as
their operands are in range, which is so for whatever was decoded from bytes.
-/

namespace TickScript.Listing

open Text

/-! ## Assembling -/

/-- Assembling succeeds with a value, whatever names are used already. -/
def Reads {α : Type} (m : Assembling α) (value : α) : Prop :=
  ∀ used, ∃ used', m.run used = .ok (value, used')

/-- What needs no reading stands for itself. -/
theorem Reads.pure {α : Type} (value : α) : Reads (Pure.pure value) value := by
  intro used
  exact ⟨used, rfl⟩

/-- A part that does not touch the names reads as it is. -/
theorem Reads.lift {α : Type} {m : Except AssembleError α} {value : α} (h : m = .ok value) :
    Reads (liftM m) value := by
  intro used
  rw [h]
  exact ⟨used, rfl⟩

/-- Parts are read one behind the other, whatever names the first one adds. -/
theorem Reads.bind {α β : Type} {m : Assembling α} {f : α → Assembling β} {a : α} {b : β}
    (hm : Reads m a) (hf : Reads (f a) b) : Reads (m >>= f) b := by
  intro used
  obtain ⟨used', hused'⟩ := hm used
  obtain ⟨used'', hused''⟩ := hf used'
  refine ⟨used'', ?_⟩
  show (m.run used >>= fun read => (f read.1).run read.2) = _
  rw [hused']
  exact hused''

/-! ## Operands -/

section

variable {names : Names} {labelled : Int → Bool} {labels : Labels} (place : Place)

/-- A printed integer is read as the word that was printed. -/
theorem integerWord_ofInt (word : Int64) :
    integerWord ⟨place, .int (ofInt word.toInt)⟩ = .ok word.toUInt64 := by
  simp only [integerWord, readWord_ofInt]

/-- An id is read back from its name or from its hexadecimal spelling. -/
theorem reads_idWord (id : Id) : Reads (idWord ⟨place, idArgument names id⟩) id.toUInt64 := by
  obtain ⟨rfl, hid⟩ | ⟨rfl, hid⟩ | ⟨name, hid, -, rfl, hreserved⟩ | hid := idArgument_cases names id
  · rw [hid]
    exact .pure _
  · rw [hid]
    exact .pure _
  · rw [hid]
    simp only [isReserved, Bool.or_eq_false_iff] at hreserved
    simp only [idWord, hreserved.1.1.1, hreserved.1.1.2]
    intro used
    exact ⟨used.set (Name.id name) name, rfl⟩
  · rw [hid]
    exact .lift (integerWord_ofInt place id)

/-- Each type is read back from its name. -/
theorem typeWord_name : ∀ k ≤ 6, typeWord ⟨place, .ident (VarType.name
    ⟨(Int64.ofNat k).toUInt64.toUInt8⟩)⟩ = .ok (Int64.ofNat k).toUInt64 := by
  have htypes : ∀ k ≤ 6, VarType.isKnown ⟨(Int64.ofNat k).toUInt64.toUInt8⟩ = true
      ∧ (⟨(Int64.ofNat k).toUInt64.toUInt8⟩ : VarType) ≠ .invalid
      ∧ UInt64.ofNat (Int64.ofNat k).toUInt64.toUInt8.toNat = (Int64.ofNat k).toUInt64 := by
    decide
  intro k hk
  obtain ⟨hknown, hvalid, hword⟩ := htypes k hk
  simp only [typeWord, VarType.ofName_name hknown, if_neg hvalid, hword]

/-- Each relation is read back from its name. -/
theorem relationWord_name : ∀ k ≤ 5, relationWord ⟨place, .ident (Relation.nameOfByte
    (Int64.ofNat k).toUInt64.toUInt8)⟩ = .ok (Int64.ofNat k).toUInt64 := by
  have hrelations : ∀ k ≤ 5, (Relation.all.find? fun r => equalFold r.mnemonic
      (Relation.nameOfByte (Int64.ofNat k).toUInt64.toUInt8)).map (fun r => UInt64.ofNat r.byte.toNat)
        = some (Int64.ofNat k).toUInt64 := by decide +kernel
  intro k hk
  obtain ⟨r, hfind, hword⟩ := Option.map_eq_some_iff.1 (hrelations k hk)
  simp only [relationWord, hfind, hword]

/-- Each connective is read back from its name. -/
theorem connectiveWord_name : ∀ k ≤ 1, connectiveWord ⟨place, .ident (Connective.nameOfByte
    (Int64.ofNat k).toUInt64.toUInt8)⟩ = .ok (Int64.ofNat k).toUInt64 := by
  intro k hk
  interval_cases k <;> rfl

/-! ## Jumps -/

/-- The labels of a function are those that the printer wrote, each at its address. -/
structure Labelled (labelled : Int → Bool) (labels : Labels) : Prop where
  nonneg : ∀ address, labelled address = true → 0 ≤ address
  found : ∀ address : Nat, labelled address = true → labels.get? (labelOf address) = some address

theorem toUInt64_of_toInt {word : Int64} {n : Nat} (h : word.toInt = n) :
    UInt64.ofNat n = word.toUInt64 := by
  rw [← Int64.ofInt_toInt word, h, Int64.ofInt_eq_ofNat]
  rfl

variable (hlabels : Labelled labelled labels)

include hlabels

/-- The address of an absolute jump. -/
theorem targetWord_address (word : Int64) : targetWord labels none ⟨place,
    if labelled word.toInt then .ident (labelOf word.toInt) else .int (ofInt word.toInt)⟩
      = .ok word.toUInt64 := by
  split
  · next hlabelled =>
      obtain ⟨address, haddress⟩ := Int.eq_ofNat_of_zero_le (hlabels.nonneg _ hlabelled)
      rw [haddress] at hlabelled ⊢
      simp only [targetWord, hlabels.found address hlabelled]
      rw [toUInt64_of_toInt haddress]
  · exact integerWord_ofInt place word

/-- The distance of a relative jump. -/
theorem distanceWord_distance (origin : Nat) {word : Int64}
    (hrange : -0x8000 ≤ word.toInt ∧ word.toInt < 0x8000) : distanceWord labels origin ⟨place,
      if labelled (origin + word.toInt) then .ident (labelOf (origin + word.toInt))
      else .int (ofInt word.toInt)⟩ = .ok word.toUInt64 := by
  have htarget : targetWord labels (some origin) ⟨place, if labelled (origin + word.toInt)
      then .ident (labelOf (origin + word.toInt)) else .int (ofInt word.toInt)⟩
        = .ok word.toUInt64 := by
    split
    · next hlabelled =>
        obtain ⟨address, haddress⟩ := Int.eq_ofNat_of_zero_le (hlabels.nonneg _ hlabelled)
        have hdistance : (address : Int) - origin = word.toInt := by omega
        rw [haddress] at hlabelled ⊢
        simp only [targetWord, hlabels.found address hlabelled, hdistance, Int64.ofInt_toInt]
    · exact integerWord_ofInt place word
  have hinside : (decide (word.toInt < -0x8000) || decide (0x8000 ≤ word.toInt)) = false := by
    simp
    omega
  rw [distanceWord, htarget]
  show (if (decide (word.toInt < -0x8000) || decide (0x8000 ≤ word.toInt)) = true then _ else _) = _
  rw [hinside]
  rfl

end

/-- What the opcode table says about the operands of jumps. -/
theorem operands_of_jump : ∀ op ∈ Opcode.all, ∀ operand ∈ op.operands,
    (operand.name = "addr" → op.operands = [operand] ∧ op.isJump = true ∧ op.isRelative = false)
      ∧ (operand.name = "off" → op.operands = [operand] ∧ op.isRelative = true
        ∧ operand.width = .bits16 ∧ operand.signed = true) := by decide

/-- The only operand of an instruction. -/
theorem operands_eq_singleton {i : Instr} (h : i.Encodable) {operand : Operand} {word : Int64}
    (hpair : (operand, word) ∈ i.op.operands.zip i.operands) (hsingle : i.op.operands = [operand]) :
    i.operands = [word] := by
  have hwords := h.words
  rw [hsingle] at hpair hwords
  obtain ⟨other, hother⟩ : ∃ other, i.operands = [other] := by
    rw [← List.length_eq_one_iff, ← hwords.length_eq]
    rfl
  rw [hother] at hpair ⊢
  simp only [List.zip_cons_cons, List.zip_nil_left, List.mem_singleton, Prod.mk.injEq] at hpair
  rw [hpair.2]

/-- An address is the one operand of an absolute jump. -/
theorem target_of_address {i : Instr} (h : i.Encodable) {operand : Operand} {word : Int64}
    (hpair : (operand, word) ∈ i.op.operands.zip i.operands) (hname : operand.name = "addr")
    (offset : Nat) : i.target offset = word.toInt := by
  have hmem := (List.of_mem_zip hpair).1
  obtain ⟨hsingle, hjump, hrelative⟩ := (operands_of_jump i.op (Opcode.mem_all i.op) operand hmem).1 hname
  simp [Instr.target, operands_eq_singleton h hpair hsingle, hjump, hrelative]

/-- A distance is the one operand of a relative jump. -/
theorem target_of_distance {i : Instr} (h : i.Encodable) {operand : Operand} {word : Int64}
    (hpair : (operand, word) ∈ i.op.operands.zip i.operands) (hname : operand.name = "off")
    (offset : Nat) : i.target offset = (offset + i.size : Nat) + word.toInt
      ∧ -0x8000 ≤ word.toInt ∧ word.toInt < 0x8000 := by
  have hmem := (List.of_mem_zip hpair).1
  obtain ⟨hsingle, hrelative, hwidth, hsigned⟩ :=
    (operands_of_jump i.op (Opcode.mem_all i.op) operand hmem).2 hname
  have hholds : operand.Holds word := List.forall₂_zip h.words hpair
  rw [Operand.Holds, hwidth, hsigned] at hholds
  refine ⟨?_, hholds⟩
  simp [Instr.target, operands_eq_singleton h hpair hsingle, hrelative]

/-- Every operand is read as the word that it is written for. -/
theorem reads_operandWord {names : Names} {labelled : Int → Bool} {labels : Labels}
    (hlabels : Labelled labelled labels) (place : Place) (offset : Nat) {i : Instr}
    (h : i.Encodable) (hnamed : i.Named) {operand : Operand} {word : Int64}
    (hpair : (operand, word) ∈ i.op.operands.zip i.operands) :
    Reads (operandWord labels (offset + i.size) operand
      ⟨place, wordArgument names labelled (i.target offset) operand word⟩) word.toUInt64 := by
  have hword := exists_of_named h hnamed hpair
  unfold Operand.lastName? at hword
  unfold wordArgument
  -- one case for each way to write an operand, and the reader goes by the same name
  split
  · next hname =>
      simp only [operandWord, hname]
      exact reads_idWord place word
  · next hname =>
      simp only [operandWord, hname, target_of_address h hpair hname]
      exact .lift (targetWord_address place hlabels word)
  · next hname =>
      obtain ⟨htarget, hrange⟩ := target_of_distance h hpair hname offset
      simp only [operandWord, hname, htarget]
      exact .lift (distanceWord_distance place hlabels _ hrange)
  · next hname =>
      simp only [operandWord, hname]
      refine .lift ?_
      simp only [integerWord, readWord_hexWord]
  · next hname =>
      obtain ⟨k, hk, rfl⟩ := hword 6 (by rw [hname]; rfl)
      simp only [operandWord, hname]
      exact .lift (typeWord_name place k hk)
  · next hname =>
      obtain ⟨k, hk, rfl⟩ := hword 5 (by rw [hname]; rfl)
      simp only [operandWord, hname]
      exact .lift (relationWord_name place k hk)
  · next hname =>
      obtain ⟨k, hk, rfl⟩ := hword 1 (by rw [hname]; rfl)
      simp only [operandWord, hname]
      exact .lift (connectiveWord_name place k hk)
  · -- sizes and exit codes have no names
    simp only [operandWord]
    exact .lift (integerWord_ofInt place word)

/-- The operands in front of the bytes of an instruction. -/
theorem reads_operandWords {labels : Labels} {origin : Nat} {f : Operand → Int64 → Argument}
    {operands : List Operand} {words : List Int64} (hlength : operands.length = words.length)
    (hread : ∀ operand word, (operand, word) ∈ operands.zip words → ∀ place,
      Reads (operandWord labels origin operand ⟨place, f operand word⟩) word.toUInt64)
    {args : List PlacedArgument} {more : List Argument}
    (hargs : args.map (·.argument) = List.zipWith f operands words ++ more) :
    Reads (operandWords labels origin (operands.zip args)) words := by
  induction operands generalizing words args with
  | nil =>
      obtain rfl := List.length_eq_zero_iff.1 hlength.symm
      exact .pure []
  | cons operand operands ih =>
      cases words with
      | nil => cases hlength
      | cons word words =>
          obtain ⟨⟨place, a⟩, args, rfl, rfl, hmore⟩ := List.map_eq_cons_iff.1 hargs
          have hfirst := hread operand word List.mem_cons_self place
          have hrest := ih (Nat.succ.inj hlength)
            (fun operand word hpair => hread operand word (List.mem_cons_of_mem _ hpair)) hmore
          exact hfirst.bind (hrest.bind (.pure _))

/-! ## Instructions -/

/-- Different operations have different mnemonics. -/
theorem ofMnemonic?_mnemonic (op : Opcode) :
    Opcode.ofMnemonic? (upper (ofString op.mnemonic)) = some op := by
  have hall : ∀ op ∈ Opcode.all, Opcode.ofMnemonic? (upper (ofString op.mnemonic)) = some op := by
    decide +kernel
  exact hall op (Opcode.mem_all op)

/-- Data bytes are written as numerals and read back one by one. -/
theorem readBytes_ofNat (place : Place) (data : Text) :
    readBytes place (data.map fun b => ofNat b.toNat) = .ok data := by
  induction data with
  | nil => rfl
  | cons b data ih =>
      have hread : readUnsigned 8 (ofNat b.toNat) = .ok b.toNat := readUnsigned_ofNat b.toNat_lt
      rw [List.map_cons, readBytes, hread]
      simp only [ih]
      show Except.ok (UInt8.ofNat b.toNat :: data) = _
      rw [UInt8.ofNat_toNat]

section

variable {names : Names} {labelled : Int → Bool} {offset : Nat} {i : Instr} (h : i.Encodable)
  {w : WrittenInstr} (hmnemonic : w.mnemonic = ofString i.op.mnemonic)
  (hargs : w.arguments.map (·.argument) = instrArguments names labelled offset i)

include h hmnemonic hargs

/-- The mnemonic of a written instruction is that of its opcode, with the right number of arguments.
-/
theorem operation_eq : operation w = .ok i.op := by
  have hlength := congrArg List.length hargs
  have hwords := h.words.length_eq
  rw [List.length_map, instrArguments, List.length_append, List.length_zipWith, hwords, Nat.min_self]
    at hlength
  have hwant : w.arguments.length = i.op.operands.length + (if i.op.hasData then 1 else 0) := by
    rw [hlength, hwords]
    split <;> rfl
  simp only [operation, hmnemonic, ofMnemonic?_mnemonic, hwant, ne_eq, not_true, if_false]

omit h hmnemonic in
/-- The bytes stand behind the operands. -/
theorem exists_getLast (hdata : i.op.hasData = true) : ∃ place,
    w.arguments.getLast? = some ⟨place, .bytes (i.data.map fun b => ofNat b.toNat)⟩ := by
  rw [instrArguments, if_pos hdata] at hargs
  obtain ⟨front, back, harguments, -, hback⟩ := List.map_eq_append_iff.1 hargs
  obtain ⟨⟨place, a⟩, none', rfl, rfl, hnone⟩ := List.map_eq_cons_iff.1 hback
  obtain rfl := List.map_eq_nil_iff.1 hnone
  exact ⟨place, by rw [harguments, List.getLast?_concat]⟩

/-- The first pass predicts the size that the instruction has. -/
theorem writtenSize_eq : writtenSize w = .ok i.size := by
  have hlisted : (if i.op.hasData then (listedBytes w).length else 0) = i.data.length := by
    split
    · next hdata =>
        obtain ⟨place, hlast⟩ := exists_getLast hargs hdata
        simp only [listedBytes, hlast, byteTexts, List.length_map]
    · next hdata =>
        have hnone := h.data
        rw [if_neg hdata] at hnone
        rw [hnone]
        rfl
  rw [writtenSize, operation_eq h hmnemonic hargs]
  show Except.ok (1 + i.op.operandBytes + (if i.op.hasData then (listedBytes w).length else 0)) = _
  rw [hlisted]
  rfl

omit hmnemonic in
/-- Between the brackets of a write stand its data. -/
theorem dataBytes_eq (hdata : i.op.hasData = true) :
    dataBytes w i.op i.operands = .ok i.data := by
  obtain ⟨place, hlast⟩ := exists_getLast hargs hdata
  have hcount := h.data
  rw [if_pos hdata] at hcount
  obtain ⟨hsize, hlastWord⟩ := hcount
  have hdeclared : (Int64.ofNat i.data.length).toUInt64.toNat = i.data.length := by
    show (UInt64.ofNat i.data.length).toNat = _
    rw [UInt64.toNat_ofNat', Nat.mod_eq_of_lt (by omega)]
  simp only [dataBytes, hlast, hlastWord, Option.getD_some, hdeclared, List.length_map, ne_eq,
    not_true, if_false]
  exact readBytes_ofNat place i.data

/-- The line of an instruction is read as the instruction. -/
theorem reads_instruction (hnamed : i.Named) {labels : Labels} (hlabels : Labelled labelled labels) :
    Reads (instruction labels offset w) i := by
  have hwords : Reads (operandWords labels (offset + i.size) (i.op.operands.zip w.arguments))
      i.operands := by
    refine reads_operandWords h.words.length_eq ?_ hargs
    intro operand word hpair place
    exact reads_operandWord hlabels place offset h hnamed hpair
  have hoperation := Reads.lift (operation_eq h hmnemonic hargs)
  have hsize := Reads.lift (writtenSize_eq h hmnemonic hargs)
  refine hoperation.bind (hsize.bind (hwords.bind ?_))
  split
  · next hdata =>
      exact (Reads.lift (dataBytes_eq h hargs hdata)).bind (.pure _)
  · next hdata =>
      have hnone := h.data
      rw [if_neg hdata] at hnone
      have hinstr : i = ⟨i.op, i.operands, []⟩ := by rw [← hnone]
      rw [← hinstr]
      exact .pure i

end

/-! ## Lines -/

/-- A line that is read from a label is that label. -/
theorem Line.exists_of_row_label {line : Line} {name : Text} (h : line.row = .label name) :
    ∃ place, line = .label place name := by
  cases line with
  | label place other =>
      obtain rfl := Row.label.inj h
      exact ⟨place, rfl⟩
  | instr w => cases h

/-- A line that is read from an instruction has its mnemonic and its arguments. -/
theorem Line.exists_of_row_instr {line : Line} {mnemonic : Text} {args : List Argument}
    (h : line.row = .instr mnemonic args) :
    ∃ w, line = .instr w ∧ w.mnemonic = mnemonic ∧ w.arguments.map (·.argument) = args := by
  cases line with
  | label place name => cases h
  | instr w =>
      obtain ⟨hmnemonic, hargs⟩ := Row.instr.inj h
      exact ⟨w, rfl, hmnemonic, hargs⟩

section

variable {names : Names} {labelled : Int → Bool} {ks : List Line}

/-- A label in front of an address stands for no code. -/
theorem code_label {address : Nat} {rows : List Row}
    (hrows : ks.map Line.row = labelRows labelled address ++ rows) (labels : Labels) (offset : Nat) :
    ∃ more, more.map Line.row = rows ∧ code labels offset ks = code labels offset more := by
  rw [labelRows] at hrows
  split at hrows
  · obtain ⟨line, more, rfl, hline, hmore⟩ := List.map_eq_cons_iff.1 hrows
    obtain ⟨place, rfl⟩ := Line.exists_of_row_label hline
    exact ⟨more, hmore, rfl⟩
  · exact ⟨ks, hrows, rfl⟩

/-- The lines of code are read as the code. -/
theorem reads_code {labels : Labels} (hlabels : Labelled labelled labels) {offset stop : Nat}
    {bytes rest : Text} {placed : List (Nat × Instr)} (hwalk : Instr.Walk offset bytes placed stop rest)
    (hnamed : ∀ entry ∈ placed, entry.2.Named)
    (hrows : ks.map Line.row = codeRows names labelled stop placed) :
    Reads (code labels offset ks) (placed.map (·.2)) := by
  induction hwalk generalizing ks with
  | @here offset _ =>
      have hlast : ks.map Line.row = labelRows labelled offset ++ [] := by
        rw [hrows, List.append_nil]
        rfl
      obtain ⟨more, hmore, hcode⟩ := code_label hlast labels offset
      obtain rfl := List.map_eq_nil_iff.1 hmore
      rw [hcode]
      exact .pure []
  | @step offset stop bytes tail rest i more hhead _ ih =>
      rw [List.forall_mem_cons] at hnamed
      obtain ⟨behind, hbehind, hcode⟩ := code_label hrows labels offset
      obtain ⟨line, after, rfl, hline, hafter⟩ := List.map_eq_cons_iff.1 hbehind
      obtain ⟨w, rfl, hmnemonic, hargs⟩ := Line.exists_of_row_instr hline
      rw [hcode]
      have hinstr := reads_instruction (Instr.decodeHead_inv hhead).1 hmnemonic hargs hnamed.1 hlabels
      exact hinstr.bind ((ih hnamed.2 hafter).bind (.pure _))

/-- A label is placed at its address, and no other label is. -/
theorem placeLabels_label {address : Nat} {rows : List Row}
    (hrows : ks.map Line.row = labelRows labelled address ++ rows) {labels : Labels}
    (hfresh : labels.get? (labelOf address) = none) : ∃ more labels', more.map Line.row = rows
      ∧ placeLabels labels address ks = placeLabels labels' address more
      ∧ (labelled address = true → labels'.get? (labelOf address) = some address)
      ∧ ∀ other : Nat, other ≠ address →
        labels'.get? (labelOf other) = labels.get? (labelOf other) := by
  rw [labelRows] at hrows
  split at hrows
  · obtain ⟨line, more, rfl, hline, hmore⟩ := List.map_eq_cons_iff.1 hrows
    obtain ⟨place, rfl⟩ := Line.exists_of_row_label hline
    have hnew : ¬labels.has (labelOf address) = true := by
      rw [(Table.has_eq_false_iff labels _).2 hfresh]
      exact Bool.false_ne_true
    refine ⟨more, labels.set (labelOf address) address, hmore, ?_, ?_, ?_⟩
    · exact if_neg hnew
    · intro _
      exact Table.get?_set_self labels (labelOf address) address
    · intro other hother
      exact Table.get?_set_of_ne labels address fun heq => hother (labelOf_injective heq)
  · next hlabelled => exact ⟨ks, labels, hrows, rfl, fun h => absurd h hlabelled, fun _ _ => rfl⟩

/-- The labels of some code are placed where the printer put them, behind those that are placed
already. -/
theorem placeLabels_code {offset stop : Nat} {bytes rest : Text} {placed : List (Nat × Instr)}
    (hwalk : Instr.Walk offset bytes placed stop rest)
    (hrows : ks.map Line.row = codeRows names labelled stop placed) {labels : Labels}
    (hfresh : ∀ address, offset ≤ address → labels.get? (labelOf address) = none) :
    ∃ labels', placeLabels labels offset ks = .ok labels'
      ∧ (∀ address ∈ placed.map (·.1) ++ [stop], labelled address = true →
        labels'.get? (labelOf address) = some address)
      ∧ ∀ address, address < offset →
        labels'.get? (labelOf address) = labels.get? (labelOf address) := by
  -- every row is a label or an instruction; labels placed before stay as they are
  induction hwalk generalizing ks labels with
  | @here offset _ =>
      have hlast : ks.map Line.row = labelRows labelled offset ++ [] := by
        rw [hrows, List.append_nil]
        rfl
      obtain ⟨more, labels', hmore, hplace, hfound, hothers⟩ :=
        placeLabels_label hlast (hfresh offset (Nat.le_refl offset))
      obtain rfl := List.map_eq_nil_iff.1 hmore
      refine ⟨labels', hplace, ?_, fun address haddress => hothers address (by omega)⟩
      intro address haddress
      obtain rfl := List.mem_singleton.1 haddress
      exact hfound
  | @step offset stop bytes tail rest i more hhead _ ih =>
      obtain ⟨behind, labels', hbehind, hplace, hfound, hothers⟩ :=
        placeLabels_label hrows (hfresh offset (Nat.le_refl offset))
      obtain ⟨line, after, rfl, hline, hafter⟩ := List.map_eq_cons_iff.1 hbehind
      obtain ⟨w, rfl, hmnemonic, hargs⟩ := Line.exists_of_row_instr hline
      -- an instruction takes at least one byte, so the labels behind it are those of other addresses
      have hpos := i.size_pos
      have hfresh' : ∀ address, offset + i.size ≤ address → labels'.get? (labelOf address) = none := by
        intro address haddress
        rw [hothers address (by omega), hfresh address (by omega)]
      obtain ⟨labels'', hmore, hfound', hothers'⟩ := ih hafter hfresh'
      refine ⟨labels'', ?_, ?_, ?_⟩
      · rw [hplace, placeLabels, writtenSize_eq (Instr.decodeHead_inv hhead).1 hmnemonic hargs]
        exact hmore
      · intro address haddress hlabelled
        rcases List.mem_cons.1 haddress with rfl | haddress
        · rw [hothers' _ (by omega), hfound hlabelled]
        · exact hfound' address haddress hlabelled
      · intro address haddress
        rw [hothers' address (by omega), hothers address (by omega)]

end

/-! ## Sections -/

/-- The id of a section is read back from what the printer wrote for it. -/
theorem reads_sectionId (names : Names) {id : Id} (hid : 0 ≤ id.toInt) :
    Reads (sectionId (showId names id)) id := by
  rw [← text_idArgument]
  obtain ⟨rfl, -⟩ | ⟨rfl, -⟩ | ⟨name, hname, hlex, rfl, -⟩ | hnumber := idArgument_cases names id
  · -- the reserved ids are negative
    exact absurd hid (by decide)
  · exact absurd hid (by decide)
  · -- a name starts no number, so it is hashed
    obtain ⟨fault, hfault⟩ := Number.signedMarked_name hlex
    rw [hname]
    intro used
    refine ⟨used.set (Name.id name) name, ?_⟩
    show (sectionId name).run used = _
    simp only [sectionId, hfault]
    rfl
  · rw [hnumber]
    intro used
    refine ⟨used, ?_⟩
    show (sectionId (ofInt id.toInt)).run used = _
    simp only [sectionId, Number.signedMarked_ofInt id.le_toInt id.toInt_lt, Int64.ofInt_toInt]
    rfl

end TickScript.Listing
