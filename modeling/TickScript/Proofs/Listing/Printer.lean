import TickScript.Proofs.Disassembly
import TickScript.Proofs.Listing.Lexer

/-!
# What a listing of code writes

The printer has a case for every operation, but what it writes is decided by the opcode table: after
the mnemonic comes one word or number for each operand, chosen by what the operand holds, and the
bytes of a write. With that, a function is a header and its rows, a label in front of every
instruction that is the target of a jump, and each of these parts is a lexeme: an id is written by
name only if the name is one, and a type, a relation or a connective only if there is one.

The listing is put together here as data, rows and their parts, and shown to be the text that the
printer writes (`showSection_eq`). Everything behind that goes by the rows. A label is written in
front of an address only if a jump leads there and an instruction starts there or the code ends
there; a jump to any other address has the number in its place, and can be read back all the same.
-/

namespace TickScript

/-- The last word that has a name, for operands that are written by name. -/
def Operand.lastName? (operand : Operand) : Option Nat :=
  match operand.name with
  | "type" => some 6
  | "method" => some 5
  | "combine" => some 1
  | _ => none

/-- The instruction holds no word without a name where names are written. -/
def Instr.Named (i : Instr) : Prop :=
  ∀ pair ∈ i.op.operands.zip i.operands, ∀ last ∈ pair.1.lastName?, pair.2.toInt ≤ last

instance (i : Instr) : Decidable i.Named :=
  inferInstanceAs (Decidable (∀ pair ∈ i.op.operands.zip i.operands,
    ∀ last ∈ pair.1.lastName?, pair.2.toInt ≤ last))

namespace Listing

open Text

/-! ## Operands -/

/-- An id as it is written. -/
def idArgument (names : Names) (id : Id) : Argument :=
  if id = Name.nullObject then .ident "null"
  else if id = Name.attachedObject then .ident "attached"
  else match names.get? id with
    | some name =>
      if isName name && Name.id name = id && !isReserved name then .ident name
      else .int (ofInt id.toInt)
    | none => .int (ofInt id.toInt)

/-- The operand of an instruction that jumps to `target`, as it is written. -/
def wordArgument (names : Names) (labelled : Int → Bool) (target : Int) (operand : Operand)
    (word : Int64) : Argument :=
  match operand.name with
  | "id" => idArgument names word
  | "addr" => if labelled target then .ident (labelOf target) else .int (ofInt word.toInt)
  | "off" => if labelled target then .ident (labelOf target) else .int (ofInt word.toInt)
  | "val" => .int (Number.hexWord word.toUInt64.toNat)
  | "type" => .ident (VarType.name ⟨word.toUInt64.toUInt8⟩)
  | "method" => .ident (Relation.nameOfByte word.toUInt64.toUInt8)
  | "combine" => .ident (Connective.nameOfByte word.toUInt64.toUInt8)
  | _ => .int (ofInt word.toInt)

/-- The operands of an instruction and its bytes. -/
def instrArguments (names : Names) (labelled : Int → Bool) (offset : Nat) (i : Instr) :
    List Argument :=
  List.zipWith (wordArgument names labelled (i.target offset)) i.op.operands i.operands
    ++ if i.op.hasData then [.bytes (i.data.map fun b => ofNat b.toNat)] else []

/-- The ways in which an id is written. -/
theorem idArgument_cases (names : Names) (id : Id) :
    (id = Name.nullObject ∧ idArgument names id = .ident "null")
      ∨ (id = Name.attachedObject ∧ idArgument names id = .ident "attached")
      ∨ (∃ name, idArgument names id = .ident name ∧ isName name = true ∧ Name.id name = id
        ∧ isReserved name = false)
      ∨ idArgument names id = .int (ofInt id.toInt) := by
  by_cases hnull : id = Name.nullObject
  · exact .inl ⟨hnull, by rw [idArgument, if_pos hnull]⟩
  by_cases hattached : id = Name.attachedObject
  · exact .inr (.inl ⟨hattached, by rw [idArgument, if_neg hnull, if_pos hattached]⟩)
  rw [idArgument, if_neg hnull, if_neg hattached]
  split
  · next name _ =>
      split
      · next hname =>
          simp only [Bool.and_eq_true, decide_eq_true_eq, Bool.not_eq_true'] at hname
          exact .inr (.inr (.inl ⟨name, rfl, hname.1.1, hname.1.2, hname.2⟩))
      · exact .inr (.inr (.inr rfl))
  · exact .inr (.inr (.inr rfl))

theorem text_idArgument (names : Names) (id : Id) : (idArgument names id).text = showId names id := by
  unfold idArgument showId
  cases names.get? id with
  | none =>
      simp only [apply_ite Argument.text]
      rfl
  | some name =>
      simp only [apply_ite Argument.text]
      rfl

/-- An instruction is written as its mnemonic and its operands. -/
theorem showInstr_eq (names : Names) (labelled : Int → Bool) (offset : Nat) {i : Instr}
    (h : i.Encodable) : showInstr names labelled offset i = ofString i.op.mnemonic
      ++ (instrArguments names labelled offset i).flatMap fun a => 0x20 :: a.text := by
  obtain ⟨op, operands, data⟩ := i
  have hwords := h.words
  -- the printer has its own case for every shape of operands
  cases op with
  | pushVar | popVar | call | free =>
      rcases hwords with - | @⟨-, word, -, -, -, - | -⟩
      show _ = ofString _ ++ 0x20 :: ((idArgument names word).text ++ [])
      rw [List.append_nil, text_idArgument]
      simp only [showInstr, List.append_assoc]
      rfl
  | jump | jumpBy | jumpIf | jumpIfBy =>
      rcases hwords with - | @⟨-, word, -, -, -, - | -⟩
      show _ = ofString _ ++ 0x20 :: ((if labelled _ then Argument.ident (labelOf _)
        else .int (ofInt word.toInt)).text ++ [])
      rw [List.append_nil, apply_ite Argument.text]
      simp only [showInstr, List.append_assoc]
      rfl
  | push | compare | combine | kill =>
      rcases hwords with - | @⟨-, word, -, -, -, - | -⟩
      show _ = ofString _ ++ 0x20 :: ((wordArgument names labelled _ _ word).text ++ [])
      rw [List.append_nil]
      simp only [showInstr]
      rfl
  | allocate =>
      rcases hwords with - | @⟨-, size, -, -, -, - | @⟨-, type, -, -, -, - | @⟨-, id, -, -, -, - | -⟩⟩⟩
      show _ = ofString "MEM" ++ 0x20 :: (ofInt size.toInt ++ 0x20
        :: (VarType.name ⟨type.toUInt64.toUInt8⟩ ++ 0x20 :: ((idArgument names id).text ++ [])))
      rw [List.append_nil, text_idArgument]
      simp only [showInstr, List.append_assoc]
      rfl
  | set =>
      rcases hwords with - | @⟨-, id, -, -, -, - | @⟨-, size, -, -, -, - | -⟩⟩
      show _ = ofString "SET" ++ 0x20 :: ((idArgument names id).text ++ 0x20 :: (ofInt size.toInt
        ++ 0x20 :: ((Argument.bytes (data.map fun b => ofNat b.toNat)).text ++ [])))
      rw [List.append_nil, text_idArgument]
      simp only [showInstr, List.append_assoc]
      rfl
  | _ =>
      rcases hwords with - | -
      exact (List.append_nil _).symm

/-! ## Words with names -/

/-- What is written by name is a byte. -/
theorem exists_of_named {i : Instr} (h : i.Encodable) (hnamed : i.Named) {operand : Operand}
    {word : Int64} (hpair : (operand, word) ∈ i.op.operands.zip i.operands) :
    ∀ last ∈ operand.lastName?, ∃ k ≤ last, word = Int64.ofNat k := by
  intro last hlast
  have hbytes : ∀ op ∈ Opcode.all, ∀ operand ∈ op.operands, operand.lastName? ≠ none →
      operand.width = .bits8 := by decide
  have hbyte := hbytes i.op (Opcode.mem_all i.op) operand (List.of_mem_zip hpair).1
    (by rw [Option.mem_def.1 hlast]; exact Option.some_ne_none last)
  have hholds : operand.Holds word := List.forall₂_zip h.words hpair
  rw [Operand.Holds, hbyte] at hholds
  have hle : word.toInt ≤ last := hnamed _ hpair last hlast
  refine ⟨word.toInt.toNat, by omega, ?_⟩
  apply Int64.toInt.inj
  rw [Int64.toInt_ofNat_of_lt (by omega)]
  omega

/-- The types that there are, as words. -/
theorem exists_of_isKnown {t : VarType} (h : t.isKnown = true) :
    ∃ k ≤ 6, t = ⟨(Int64.ofNat k).toUInt64.toUInt8⟩ := by
  obtain ⟨tag⟩ := t
  have hle : tag.toNat ≤ 6 := by simpa [VarType.isKnown, UInt8.le_iff_toNat_le] using h
  refine ⟨tag.toNat, hle, ?_⟩
  have htag : tag = (UInt64.ofNat tag.toNat).toUInt8 := by
    rw [← UInt8.toNat_inj, UInt64.toNat_toUInt8, UInt64.toNat_ofNat']
    omega
  exact congrArg VarType.mk htag

theorem isName_typeName : ∀ k ≤ 6, isName (VarType.name ⟨(Int64.ofNat k).toUInt64.toUInt8⟩) = true := by
  decide

theorem isName_relationName :
    ∀ k ≤ 5, isName (Relation.nameOfByte (Int64.ofNat k).toUInt64.toUInt8) = true := by
  decide

theorem isName_connectiveName :
    ∀ k ≤ 1, isName (Connective.nameOfByte (Int64.ofNat k).toUInt64.toUInt8) = true := by
  decide

/-! ## Lexemes -/

/-- An id is printed as one name or one number. -/
theorem lexical_idArgument (names : Names) (id : Id) : (idArgument names id).Lexical := by
  obtain ⟨-, hnull⟩ | ⟨-, hattached⟩ | ⟨name, hname, hlex, -⟩ | hnumber := idArgument_cases names id
  · rw [hnull]
    exact isLexeme_name rfl
  · rw [hattached]
    exact isLexeme_name rfl
  · rw [hname]
    exact isLexeme_name hlex
  · rw [hnumber]
    exact isLexeme_ofInt _

/-- Whether an id is written as a name or as a number. -/
def idKind (names : Names) (id : Id) : LexemeKind :=
  match idArgument names id with
  | .ident _ => .ident
  | _ => .int

/-- The id of a section is printed as one name or one number. -/
theorem isLexeme_showId (names : Names) (id : Id) :
    (idKind names id = .ident ∨ idKind names id = .int)
      ∧ IsLexeme (idKind names id) (showId names id) := by
  have hlexical := lexical_idArgument names id
  rw [← text_idArgument, idKind]
  obtain ⟨-, hid⟩ | ⟨-, hid⟩ | ⟨name, hid, -⟩ | hid := idArgument_cases names id <;>
    rw [hid] at hlexical ⊢
  · exact ⟨.inl rfl, hlexical⟩
  · exact ⟨.inl rfl, hlexical⟩
  · exact ⟨.inl rfl, hlexical⟩
  · exact ⟨.inr rfl, hlexical⟩

variable {names : Names} {labelled : Int → Bool}

/-- A target is printed as its label, or as a number where it has none. -/
theorem lexical_label (hlabelled : ∀ t, labelled t = true → 0 ≤ t) (target : Int) (word : Int64) :
    Argument.Lexical (if labelled target then .ident (labelOf target) else .int (ofInt word.toInt)) := by
  split
  · next htarget =>
      obtain ⟨address, rfl⟩ := Int.eq_ofNat_of_zero_le (hlabelled target htarget)
      exact isLexeme_name (isName_labelOf address)
  · exact isLexeme_ofInt _

/-- Operands with names are printed by name if they have one, the others as numbers. -/
theorem lexical_wordArgument (hlabelled : ∀ t, labelled t = true → 0 ≤ t) (target : Int)
    {operand : Operand} {word : Int64}
    (hword : ∀ last ∈ operand.lastName?, ∃ k ≤ last, word = Int64.ofNat k) :
    (wordArgument names labelled target operand word).Lexical := by
  unfold wordArgument
  unfold Operand.lastName? at hword
  split
  · exact lexical_idArgument names word
  · exact lexical_label hlabelled target word
  · exact lexical_label hlabelled target word
  · exact isLexeme_hexWord _
  · next hname =>
      obtain ⟨k, hk, rfl⟩ := hword 6 (by rw [hname]; rfl)
      exact isLexeme_name (isName_typeName k hk)
  · next hname =>
      obtain ⟨k, hk, rfl⟩ := hword 5 (by rw [hname]; rfl)
      exact isLexeme_name (isName_relationName k hk)
  · next hname =>
      obtain ⟨k, hk, rfl⟩ := hword 1 (by rw [hname]; rfl)
      exact isLexeme_name (isName_connectiveName k hk)
  · exact isLexeme_ofInt _

/-- Every argument of a printed instruction is one that the lexer knows. -/
theorem lexical_instrArguments (hlabelled : ∀ t, labelled t = true → 0 ≤ t) (offset : Nat) {i : Instr}
    (h : i.Encodable) (hnamed : i.Named) :
    ∀ a ∈ instrArguments names labelled offset i, a.Lexical := by
  intro a ha
  rcases List.mem_append.1 ha with ha | ha
  · rw [← List.map_uncurry_zip_eq_zipWith] at ha
    obtain ⟨⟨operand, word⟩, hpair, rfl⟩ := List.mem_map.1 ha
    exact lexical_wordArgument hlabelled _ (exists_of_named h hnamed hpair)
  · split at ha
    · obtain rfl := List.mem_singleton.1 ha
      intro item hitem
      obtain ⟨b, -, rfl⟩ := List.mem_map.1 hitem
      exact isLexeme_ofNat _
    · cases ha

/-- Every mnemonic is a name. -/
theorem isName_mnemonic (op : Opcode) : isName (ofString op.mnemonic) = true := by
  cases op <;> rfl

/-! ## Rows -/

/-- The label in front of an address, if it has one. -/
def labelRows (labelled : Int → Bool) (address : Nat) : List Row :=
  if labelled address then [.label (labelOf address)] else []

/-- The rows of some instructions, which end at `stop`. -/
def codeRows (names : Names) (labelled : Int → Bool) (stop : Nat) : List (Nat × Instr) → List Row
  | [] => labelRows labelled stop
  | (offset, i) :: more =>
    labelRows labelled offset
      ++ .instr (ofString i.op.mnemonic) (instrArguments names labelled offset i)
      :: codeRows names labelled stop more

/-- Every row of printed code is one that the lexer knows. -/
theorem lexical_codeRows (hlabelled : ∀ t, labelled t = true → 0 ≤ t) (stop : Nat)
    {placed : List (Nat × Instr)} (h : ∀ entry ∈ placed, entry.2.Encodable ∧ entry.2.Named) :
    ∀ r ∈ codeRows names labelled stop placed, r.Lexical := by
  have hlabel (address : Nat) : ∀ r ∈ labelRows labelled address, r.Lexical := by
    intro r hr
    rw [labelRows] at hr
    split at hr
    · obtain rfl := List.mem_singleton.1 hr
      exact isName_labelOf address
    · cases hr
  induction placed with
  | nil => exact hlabel stop
  | cons entry more ih =>
      obtain ⟨offset, i⟩ := entry
      rw [List.forall_mem_cons] at h
      intro r hr
      rcases List.mem_append.1 hr with hr | hr
      · exact hlabel offset r hr
      rcases List.mem_cons.1 hr with rfl | hr
      · exact ⟨isName_mnemonic i.op, lexical_instrArguments hlabelled offset h.1.1 h.1.2⟩
      · exact ih h.2 r hr

/-- The text of a label's row, where there is a label. -/
theorem text_labelRows (address : Nat) : (labelRows labelled address).flatMap Row.text
    = if labelled address then labelOf address ++ ":\n" else [] := by
  rw [labelRows]
  split
  · rw [List.flatMap_cons, List.flatMap_nil, List.append_nil]
    rfl
  · rfl

/-- The rows put together are the text that the printer writes. -/
theorem text_codeRows (stop : Nat) {placed : List (Nat × Instr)}
    (h : ∀ entry ∈ placed, entry.2.Encodable) :
    (codeRows names labelled stop placed).flatMap Row.text
      = (placed.map fun (offset, i) => (if labelled offset then labelOf offset ++ ":\n" else [])
        ++ ("    " : Text) ++ showInstr names labelled offset i ++ ("\n" : Text)).flatten
        ++ if labelled stop then labelOf stop ++ ":\n" else [] := by
  induction placed with
  | nil => exact text_labelRows stop
  | cons entry more ih =>
      obtain ⟨offset, i⟩ := entry
      rw [List.forall_mem_cons] at h
      have hinstr := showInstr_eq names labelled offset h.1
      rw [codeRows, List.flatMap_append, List.flatMap_cons, text_labelRows, ih h.2, Row.text,
        List.map_cons, List.flatten_cons]
      simp only [hinstr, List.append_assoc]
      rfl

/-! ## Functions -/

/-- The targets of jumps that are starts of instructions or the end of the code have labels. -/
def hasLabel (placed : List (Nat × Instr)) (stop : Nat) (address : Int) : Bool :=
  ((placed.map fun (offset, i) => i.target offset).filter fun target =>
    0 ≤ target && (placed.map (·.1) ++ [stop]).contains target.toNat).contains address

/-- Labels stand at the starts of instructions or at the end. -/
theorem mem_starts_of_hasLabel {placed : List (Nat × Instr)} {stop : Nat} {address : Int}
    (h : hasLabel placed stop address = true) :
    0 ≤ address ∧ address.toNat ∈ placed.map (·.1) ++ [stop] := by
  rw [hasLabel, List.contains_iff_mem, List.mem_filter] at h
  simpa using h.2

/-- A function with some code as it is written. -/
def writtenFunction (names : Names) (id : Id) (f : FunctionBody) (placed : List (Nat × Instr)) :
    Written where
  kind := idKind names id
  name := showId names id
  params := ofNat f.paramCount.toNat
  returns := f.returnType.name
  rows := codeRows names (hasLabel placed f.code.length) f.code.length placed

/-- A printed function can be cut into lexemes again. -/
theorem lexical_writtenFunction (names : Names) (id : Id) {f : FunctionBody}
    (hreturns : f.returnType.isKnown = true) {placed : List (Nat × Instr)}
    (h : ∀ entry ∈ placed, entry.2.Encodable ∧ entry.2.Named) :
    (writtenFunction names id f placed).Lexical := by
  obtain ⟨hkind, hname⟩ := isLexeme_showId names id
  have hreturns : isName f.returnType.name = true := by
    obtain ⟨k, hk, htype⟩ := exists_of_isKnown hreturns
    rw [htype]
    exact isName_typeName k hk
  refine ⟨hkind, hname, isLexeme_ofNat _, isLexeme_name hreturns, ?_⟩
  refine lexical_codeRows ?_ f.code.length h
  intro t ht
  exact (mem_starts_of_hasLabel ht).1

/-- The text of a function section. -/
theorem showSection_eq (names : Names) {s : Section} {f : FunctionBody}
    {placed : List (Nat × Instr)} (hkind : s.kind = .function)
    (hbody : FunctionBody.ofPayload s.data = .ok f)
    (hplaced : placedInstrs f.code.length 0 f.code = .ok placed)
    (h : ∀ entry ∈ placed, entry.2.Encodable) :
    showSection names s = .ok (writtenFunction names s.id f placed).text := by
  have hcode : showCode names f.code
      = .ok ((writtenFunction names s.id f placed).rows.flatMap Row.text) := by
    rw [writtenFunction, text_codeRows _ h, showCode, hplaced]
    rfl
  unfold showSection
  split
  · rw [hbody]
    simp only [hcode, Written.text, writtenFunction, List.append_assoc]
    rfl
  · next hother => exact absurd hkind hother

end Listing

end TickScript
