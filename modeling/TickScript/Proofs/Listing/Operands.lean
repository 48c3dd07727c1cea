import TickScript.Proofs.Codegen.WellFormed
import TickScript.Proofs.Listing.Labels
import TickScript.Proofs.Listing.Parsed

/-!
# Listings mean what they say

What is written in a listing is read back from the sections that are assembled for it: the code of a
function is decoded as the instructions of its lines, with the same operations, the words that their
names stand for and the numbers that are written, and the payload of a global holds the number of its
initial value. A number that is no 64-bit word is refused, and so is a distance that is out of reach
or an item of a byte list that is no byte.

Not every number survives. An 8-bit operand and a 32-bit global have no range of their own to be
refused for: they keep the low bits of the word, so `CMP 256` is assembled as `CMP EQ`. A number with
a point goes through both float formats and loses its fraction, and the name of a section that is no
signed word is hashed, even when it is a number.

`Argument.Means` is stated on what the parser yields for an operand and has one rule for each way of
writing it, names included; it is independent of the assembler's readers. An operand keeps what fits
its width (`Operand.keeps`): that is the identity on the numbers in range, and the remainder modulo
the width on the others. Where a label leads is not a matter of a single operand and is left to
`Proofs.Listing.Labels`.
-/

namespace TickScript

open Text

/-- What an operand keeps of a number. -/
def Operand.keeps (operand : Operand) (n : Int) : Int64 :=
  if operand.width = .bits8 then Int64.ofInt (n % 0x100) else Int64.ofInt n

/-- What an integer or an object keeps of a number. -/
def VarType.keeps (type : VarType) (n : Int) : Int :=
  if type = .object then n.bmod 0x10000000000000000
  else if type = .uint then n % 0x100000000
  else n.bmod 0x100000000

/-- The value of an integer or an object for a number. -/
def VarType.valueOf (type : VarType) (n : Int) : Value :=
  if type = .object then .ofHandle n else if type = .uint then .ofUint n else .ofInt n

theorem VarType.valueOf_object (n : Int) : VarType.object.valueOf n = .ofHandle n := rfl

theorem VarType.valueOf_int (n : Int) : VarType.int.valueOf n = .ofInt n := rfl

theorem VarType.valueOf_uint (n : Int) : VarType.uint.valueOf n = .ofUint n := rfl

/-- The instructions that a walk to the end of some code goes over are what the code is decoded as. -/
theorem Instr.Walk.decodes {code tail : Text} {offset stop : Nat} {rest : Text}
    {placed : List (Nat × Instr)} (h : Instr.Walk offset tail placed stop rest)
    (htail : code.drop offset = tail) (hstop : stop = code.length) : Decodes code offset placed := by
  induction h with
  | here =>
      subst hstop
      exact .stop
  | step hhead _ ih =>
      obtain ⟨hencodable, hbytes⟩ := Instr.decodeHead_inv hhead
      refine .next (Instr.decodeAt_eq_ok_iff.2 ⟨_, by rw [htail]; exact hhead⟩) (ih ?_ hstop)
      rw [← List.drop_drop, htail, hbytes, List.drop_left' hencodable.length_encode]

/-- The word that an operand is decoded as when it is emitted for a word. -/
def Operand.reread (operand : Operand) (word : UInt64) : Int64 :=
  Instr.decodeOperand operand (Instr.encodeOperand operand word.toInt64)

namespace Listing

open Number

/-! ## What is written -/

/-- What an argument in the place of an operand says. Where a label leads is said of the code as a
whole. -/
inductive Argument.Means : Argument → Operand → Int64 → Prop
  /-- A number stands for what the operand keeps of it; as a distance it has to be in reach. -/
  | number {t : Text} {n : Int} {operand : Operand} : Numeral t n → -2 ^ 63 ≤ n → n < 2 ^ 64 →
    (operand = .distance → InReach (Int64.ofInt n).toInt) → Means (.int t) operand (operand.keeps n)
  /-- The word for the null object. -/
  | null : Means (.ident (ofString "null")) .id Name.nullObject
  /-- The word for the attached object. -/
  | attached : Means (.ident (ofString "attached")) .id Name.attachedObject
  /-- Any other name stands for its id. -/
  | name {name : Text} : name ≠ ofString "null" → name ≠ ofString "attached" →
    Means (.ident name) .id (Name.id name)
  /-- Where a label leads is said of the code as a whole. -/
  | label {name : Text} {operand : Operand} {word : Int64} :
    operand = .address ∨ operand = .distance → Means (.ident name) operand word
  /-- The name of a type. -/
  | type {name : Text} : VarType.ofName name ≠ .invalid →
    Means (.ident name) ⟨"type", .bits8, false⟩ (Int64.ofNat (VarType.ofName name).tag.toNat)
  /-- The mnemonic of a relation, in any case. -/
  | relation {name : Text} {r : Relation} : equalFold (ofString r.mnemonic) name = true →
    Means (.ident name) ⟨"method", .bits8, false⟩ (Int64.ofNat r.byte.toNat)
  /-- The mnemonic of a connective, in any case. -/
  | connective {name : Text} {c : Connective} : ofString c.mnemonic = upper name →
    Means (.ident name) ⟨"combine", .bits8, false⟩ (Int64.ofNat c.byte.toNat)

/-- The number that is written as an initial value. -/
inductive Argument.Counts : Argument → Int → Prop
  | int {t : Text} {n : Int} : Numeral t n → -2 ^ 63 ≤ n → n < 2 ^ 64 → Counts (.int t) n
  | float {t : Text} {x : Number.Real} : Number.parse .double t = .ok x →
    Counts (.float t) (Value.ofReal x).toInt

/-- Whether an argument is a number. -/
def Argument.isNumber : Argument → Bool
  | .int _ => true
  | .float _ => true
  | _ => false

/-- The line of an instruction says the instruction. -/
structure WrittenInstr.Tells (i : WrittenInstr) (instr : Instr) : Prop where
  /-- The mnemonic, in either case. -/
  mnemonic : upper i.mnemonic = ofString instr.op.mnemonic
  /-- One argument for each operand, and one for the data. -/
  count : i.arguments.length = instr.op.operands.length + (if instr.op.hasData then 1 else 0)
  /-- Each argument means its word. -/
  operands : List.Forall₂ (fun pair word => pair.2.argument.Means pair.1 word)
    (instr.op.operands.zip i.arguments) instr.operands
  /-- The data are written byte by byte. -/
  data : if instr.op.hasData then
      ∃ place items, i.arguments.getLast? = some ⟨place, .bytes items⟩
        ∧ List.Forall₂ (fun t (b : UInt8) => Magnitude t b.toNat) items instr.data
    else instr.data = []

/-- The id that a section is written with: a signed word, or the hash of anything else. -/
inductive Identifies (name : Text) : Id → Prop
  | number {n : Int} : Numeral name n → -2 ^ 63 ≤ n → n < 2 ^ 63 → Identifies name (Int64.ofInt n)
  | name : (∀ n, Numeral name n → ¬(-2 ^ 63 ≤ n ∧ n < 2 ^ 63)) → Identifies name (Name.id name)

/-- The section of a declaration holds what is written. -/
def Item.Kept : Item → Section → Prop
  | .global _ isField name type value?, s =>
    s.kind = (if isField then .field else .var) ∧ Identifies name s.id
      ∧ ∀ a ∈ value?, a.isNumber = true → VarType.ofName type ∈ [VarType.object, .int, .uint] →
        ∃ n v, a.Counts n ∧ Value.ofPayload s.data = .ok v ∧ v.type = VarType.ofName type
          ∧ v.toInt = (VarType.ofName type).keeps n
  | .function _ name params returns ks, s =>
    s.kind = .function ∧ Identifies name s.id ∧ ∃ body, FunctionBody.ofPayload s.data = .ok body
      ∧ Magnitude params body.paramCount.toNat ∧ body.returnType = VarType.ofName returns
      ∧ (body.code.length < 2 ^ 63 → ∃ listing, Decodes body.code 0 listing
        ∧ LabelsLand ks body.code listing
        ∧ List.Forall₂ (fun i entry => i.Tells entry.2) (instrLines ks) listing)

/-! ## Words -/

/-- A word in the range of its operand is not changed by being written and read. -/
theorem reread_eq {operand : Operand} {word : UInt64} (h : operand.Holds word.toInt64) :
    operand.reread word = word.toInt64 :=
  Instr.decodeOperand_encodeOperand h

/-- Neither is a byte. -/
theorem reread_byte {operand : Operand} (h : operand.width = .bits8) (b : UInt8) :
    operand.reread (UInt64.ofNat b.toNat) = Int64.ofNat b.toNat := by
  have hb := b.toNat_lt
  refine reread_eq ?_
  show operand.Holds (Int64.ofNat b.toNat)
  simp only [Operand.Holds, h, Instr.toInt_byte]
  omega

/-- A word is an integer modulo its width. -/
theorem toNat_word (n : Int) : ((Int64.ofInt n).toUInt64.toNat : Int) = n % 0x10000000000000000 := by
  show ((BitVec.ofInt 64 n).toNat : Int) = _
  rw [BitVec.toNat_ofInt]
  omega

/-- Of a number that is no distance an operand keeps what its width allows. -/
theorem reread_ofInt {operand : Operand} (h : operand.width ≠ .bits16) (n : Int) :
    operand.reread (Int64.ofInt n).toUInt64 = operand.keeps n := by
  cases hwidth : operand.width with
  | bits8 =>
      -- the low byte of a word is that of the number
      have hword := toNat_word n
      have hlow : (((Int64.ofInt n).toUInt64.toNat % 256 : Nat) : Int) = n % 0x100 := by omega
      rw [Operand.keeps, if_pos hwidth, ← hlow, Int64.ofInt_eq_ofNat]
      simp only [Operand.reread, Instr.decodeOperand, Instr.ofLittleEndian_encodeOperand, hwidth,
        Width.bytes, Int64.toInt64_toUInt64]
      rfl
  | bits16 => exact absurd hwidth h
  | bits64 =>
      rw [Operand.keeps, if_neg (by rw [hwidth]; decide), reread_eq]
      · rfl
      · simp only [Operand.Holds, hwidth]

section

variable {a : PlacedArgument} {word : UInt64} (ha : a.argument.Spelled)

include ha

/-- What is read as an integer is a numeral within the two ranges of a word, and is taken modulo its
width. -/
theorem integerWord_inv (h : integerWord a = .ok word) : ∃ t n, a.argument = .int t
    ∧ Numeral t n ∧ -2 ^ 63 ≤ n ∧ n < 2 ^ 64 ∧ word = (Int64.ofInt n).toUInt64 := by
  unfold integerWord at h
  split at h
  · next t hargument =>
      rw [hargument] at ha
      split at h
      · next read hread =>
          obtain rfl := Except.ok.inj h
          obtain ⟨n, hn⟩ := (readWord_iff ha).1 hread
          exact ⟨t, n, hargument, hn⟩
      · cases h
  · cases h

/-- A number stands for what its operand keeps of it. -/
theorem means_of_integerWord {operand : Operand} (hwidth : operand.width ≠ .bits16)
    (h : integerWord a = .ok word) : a.argument.Means operand (operand.reread word) := by
  obtain ⟨t, n, hargument, hn, hlow, hhigh, rfl⟩ := integerWord_inv ha h
  rw [hargument, reread_ofInt hwidth]
  refine .number hn hlow hhigh fun hdistance => ?_
  subst hdistance
  exact absurd rfl hwidth

/-- A type is a name or a number of one byte. -/
theorem means_of_typeWord (h : typeWord a = .ok word) :
    a.argument.Means ⟨"type", .bits8, false⟩ (Operand.reread ⟨"type", .bits8, false⟩ word) := by
  simp only [typeWord] at h
  split at h
  · next name hargument =>
      split at h
      · cases h
      · next hknown =>
          obtain rfl := Except.ok.inj h
          rw [hargument, reread_byte rfl]
          exact .type hknown
  · exact means_of_integerWord ha (by decide) h

/-- A relation is a name or a number of one byte. -/
theorem means_of_relationWord (h : relationWord a = .ok word) :
    a.argument.Means ⟨"method", .bits8, false⟩ (Operand.reread ⟨"method", .bits8, false⟩ word) := by
  unfold relationWord at h
  split at h
  · next name hargument =>
      split at h
      · next r hfound =>
          obtain rfl := Except.ok.inj h
          rw [hargument, reread_byte rfl]
          have hname := List.find?_some hfound
          exact .relation hname
      · cases h
  · exact means_of_integerWord ha (by decide) h

/-- A connective is a name or a number of one byte. -/
theorem means_of_connectiveWord (h : connectiveWord a = .ok word) :
    a.argument.Means ⟨"combine", .bits8, false⟩ (Operand.reread ⟨"combine", .bits8, false⟩ word) := by
  unfold connectiveWord at h
  split at h
  · next name hargument =>
      split at h
      · next c hfound =>
          obtain rfl := Except.ok.inj h
          rw [hargument, reread_byte rfl]
          have hname := List.find?_some hfound
          exact .connective (beq_iff_eq.1 hname)
      · cases h
  · exact means_of_integerWord ha (by decide) h

/-- An id is a number, or the id of the name that is written. -/
theorem Gives.means_id (h : Gives (idWord a) word) :
    a.argument.Means .id (Operand.id.reread word) := by
  unfold idWord at h
  split at h
  · next name hargument =>
      rw [hargument, reread_eq (show Operand.id.Holds _ from trivial)]
      split at h
      · next hnull =>
          obtain rfl := h.pure_inv
          rw [beq_iff_eq.1 hnull]
          exact .null
      · next hnull =>
          split at h
          · next hattached =>
              obtain rfl := h.pure_inv
              rw [beq_iff_eq.1 hattached]
              exact .attached
          · next hattached =>
              obtain ⟨_, -, h⟩ := h.bind_inv
              obtain rfl := h.pure_inv
              exact .name (by simpa using hnull) (by simpa using hattached)
  · exact means_of_integerWord ha (by decide) h.lift_inv

/-- An absolute target without a label is a number. -/
theorem means_of_address {labels : Labels} (h : targetWord labels none a = .ok word) :
    a.argument.Means .address (Operand.address.reread word) := by
  unfold targetWord at h
  split at h
  · next name hargument =>
      rw [hargument]
      exact .label (.inl rfl)
  · exact means_of_integerWord ha (by decide) h

/-- A distance without a label is a number within reach. -/
theorem means_of_distance {labels : Labels} {origin : Nat} (h : distanceWord labels origin a = .ok word) :
    a.argument.Means .distance (Operand.distance.reread word) := by
  obtain ⟨htarget, hreach⟩ := distanceWord_inv h
  rw [reread_eq (show Operand.distance.Holds _ from hreach)]
  unfold targetWord at htarget
  split at htarget
  · next name hargument =>
      rw [hargument]
      exact .label (.inr rfl)
  · obtain ⟨t, n, hargument, hn, hlow, hhigh, rfl⟩ := integerWord_inv ha htarget
    rw [hargument]
    exact .number hn hlow hhigh fun _ => hreach

end

/-- The operands that there are. -/
theorem operand_cases {op : Opcode} {operand : Operand} (h : operand ∈ op.operands) :
    operand = .id ∨ operand = .address ∨ operand = .distance ∨ operand = .word ∨ operand = .size
      ∨ operand = ⟨"type", .bits8, false⟩ ∨ operand = ⟨"method", .bits8, false⟩
      ∨ operand = ⟨"combine", .bits8, false⟩ ∨ operand = ⟨"code", .bits64, true⟩ := by
  cases op <;> simp [Opcode.operands] at h <;> tauto

section

variable {labels : Labels} {origin : Nat}

/-- The word of an operand is what its argument says. -/
theorem Gives.means {op : Opcode} {operand : Operand} (hoperand : operand ∈ op.operands)
    {a : PlacedArgument} (ha : a.argument.Spelled) {word : UInt64}
    (h : Gives (operandWord labels origin operand a) word) :
    a.argument.Means operand (operand.reread word) := by
  -- the reader goes by the name of the operand
  rcases operand_cases hoperand with rfl | rfl | rfl | rfl | rfl | rfl | rfl | rfl | rfl
  · exact h.means_id ha
  · exact means_of_address ha h.lift_inv
  · exact means_of_distance ha h.lift_inv
  · exact means_of_integerWord ha (by decide) h.lift_inv
  · exact means_of_integerWord ha (by decide) h.lift_inv
  · exact means_of_typeWord ha h.lift_inv
  · exact means_of_relationWord ha h.lift_inv
  · exact means_of_connectiveWord ha h.lift_inv
  · exact means_of_integerWord ha (by decide) h.lift_inv

/-- Each operand keeps what it keeps of its argument. -/
theorem Gives.words_mean {op : Opcode} {operands : List Operand}
    (hoperands : ∀ operand ∈ operands, operand ∈ op.operands) {args : List PlacedArgument}
    (hargs : ∀ a ∈ args, a.argument.Spelled) {words : List Int64}
    (h : Gives (operandWords labels origin (operands.zip args)) words)
    (hcount : operands.length ≤ args.length) :
    List.Forall₂ (fun pair word => pair.2.argument.Means pair.1 word) (operands.zip args)
      (Instr.clippedWords operands words) := by
  induction operands generalizing args words with
  | nil => exact .nil
  | cons operand operands ih =>
      cases args with
      | nil => cases hcount
      | cons a args =>
          obtain ⟨ha, hargs⟩ := List.forall_mem_cons.1 hargs
          obtain ⟨hoperand, hoperands⟩ := List.forall_mem_cons.1 hoperands
          obtain ⟨word, hword, h⟩ := h.bind_inv
          obtain ⟨more, hmore, h⟩ := h.bind_inv
          obtain rfl := h.pure_inv
          exact .cons (hword.means hoperand ha) (ih hoperands hargs hmore (Nat.le_of_succ_le_succ hcount))

end

/-! ## Instructions -/

/-- Each byte between the brackets is a number below 256. -/
theorem readBytes_inv {place : Place} {items : List Text} (hitems : ∀ t ∈ items, IsInt t) {data : Text}
    (h : readBytes place items = .ok data) :
    List.Forall₂ (fun t (b : UInt8) => Magnitude t b.toNat) items data := by
  induction items generalizing data with
  | nil =>
      obtain rfl := Except.ok.inj h
      exact .nil
  | cons t items ih =>
      obtain ⟨ht, hitems⟩ := List.forall_mem_cons.1 hitems
      unfold readBytes at h
      split at h
      · cases h
      · next n hread =>
          obtain ⟨more, hmore, h⟩ := Expr.bind_eq_ok.1 h
          obtain rfl := Except.ok.inj h
          exact .cons (ht.readByte hread) (ih hitems hmore)

/-- An emitted instruction has the operation of its line, and its operands keep what is written there.
-/
theorem Gives.tells {labels : Labels} {address : Nat} {i : WrittenInstr} {instr : Instr}
    (h : Gives (instruction labels address i) instr) (hi : ∀ a ∈ i.arguments, a.argument.Spelled) :
    i.Tells instr.clipped := by
  obtain ⟨size, hop, -, hwords, hdata⟩ := h.instruction_inv
  obtain ⟨hmnemonic, hcount⟩ := operation_inv hop
  refine ⟨hmnemonic, hcount, hwords.words_mean (fun _ => id) hi (by omega), ?_⟩
  show if instr.op.hasData = true then _ else _
  split
  · next hhas =>
      rw [if_pos hhas] at hdata
      obtain ⟨place, items, hlast, -, hread⟩ := dataBytes_inv (arguments_ne_nil hop hhas) hdata
      exact ⟨place, items, hlast, readBytes_inv (hi _ (List.mem_of_getLast? hlast)) hread⟩
  · next hhas =>
      rw [if_neg hhas] at hdata
      exact hdata

/-- Every line of an instruction says what is emitted for it. -/
theorem Gives.code_tells {labels : Labels} {address : Nat} {ks : List Line} {instrs : List Instr}
    (h : Gives (code labels address ks) instrs) (hks : ∀ line ∈ ks, line.Spelled) :
    List.Forall₂ WrittenInstr.Tells (instrLines ks) (instrs.map Instr.clipped) := by
  induction ks generalizing address instrs with
  | nil =>
      obtain rfl := h.pure_inv
      exact .nil
  | cons line ks ih =>
      obtain ⟨hline, hmore⟩ := List.forall_mem_cons.1 hks
      cases line with
      | label place name => exact ih h hmore
      | instr i =>
          obtain ⟨instr, rest, rfl, hinstr, hrest⟩ := h.code_instr_inv
          exact .cons (hinstr.tells hline) (ih hrest hmore)

/-! ## Sections -/

/-- A name is no numeral. -/
theorem not_numeral_of_isName {name : Text} (h : isName name = true) (n : Int) : ¬Numeral name n := by
  obtain ⟨b, rest, rfl, hstart, -⟩ := exists_of_isName h
  have hmagnitude (m : Nat) : ¬Magnitude (b :: rest) m := by
    intro hm
    cases hm with
    | hexadecimal _ _ _ => cases hstart
    | octal _ => cases hstart
    | decimal _ hspelled =>
        obtain ⟨d, hd, hsmall⟩ := hspelled.digit_of_mem b List.mem_cons_self
        have hlarge := digit?_of_startsName hstart d hd
        omega
  intro hn
  cases hn with
  | unsigned hm => exact hmagnitude _ hm
  | plus _ => cases hstart
  | minus _ => cases hstart

/-- The id of a section is the number or the id of the name that is written. -/
theorem Gives.identifies {name : Text} {id : Id} (h : Gives (sectionId name) id)
    (hname : isName name = true ∨ IsInt name) : Identifies name id := by
  unfold sectionId at h
  split at h
  · next n hread =>
      obtain rfl := h.pure_inv
      rcases hname with hname | hname
      · obtain ⟨fault, hfault⟩ := signedMarked_name hname
        rw [hfault] at hread
        cases hread
      · obtain ⟨hn, hlow, hhigh⟩ := (signedMarked_iff hname).1 hread
        exact .number hn hlow hhigh
  · next fault hread =>
      obtain ⟨_, -, h⟩ := h.bind_inv
      obtain rfl := h.pure_inv
      refine .name fun n hn ⟨hlow, hhigh⟩ => ?_
      rcases hname with hname | hname
      · exact not_numeral_of_isName hname n hn
      · rw [(signedMarked_iff hname).2 ⟨hn, hlow, hhigh⟩] at hread
        cases hread

/-- An integer type keeps a number modulo its width. -/
theorem valueOf_keeps {type : VarType} (h : type ∈ [VarType.object, .int, .uint]) (n : Int) :
    (type.valueOf n).WellFormed ∧ (type.valueOf n).type = type
      ∧ (type.valueOf n).toInt = type.keeps n := by
  simp only [List.mem_cons, List.not_mem_nil, or_false] at h
  rcases h with rfl | rfl | rfl
  · exact ⟨Value.wellFormed_ofHandle n, rfl, Value.toInt_ofHandle n⟩
  · exact ⟨Value.wellFormed_ofInt n, rfl, Value.toInt_ofInt n⟩
  · exact ⟨Value.wellFormed_ofUint n, rfl, Value.toInt_ofUint n⟩

/-- Taking a number modulo the word before changes nothing. -/
theorem valueOf_emod (type : VarType) (n : Int) :
    type.valueOf (n % 0x10000000000000000) = type.valueOf n := by
  have hlow : n % 0x10000000000000000 % 0x100000000 = n % 0x100000000 :=
    Int.emod_emod_of_dvd n ⟨0x100000000, rfl⟩
  rw [VarType.valueOf, VarType.valueOf, Value.ofHandle_congr (Int.emod_emod n _),
    Value.ofUint_congr hlow, Value.ofInt_congr hlow]

/-- An integer is stored in the type of the variable. -/
theorem initialValue_int {type : VarType} (htype : type ∈ [VarType.object, .int, .uint]) {t : Text}
    {word : UInt64} (hread : readWord t = .ok word) :
    initialValue type (.int t) = .ok (type.valueOf word.toNat) := by
  simp only [List.mem_cons, List.not_mem_nil, or_false] at htype
  rcases htype with rfl | rfl | rfl
  · rw [VarType.valueOf_object]
    simp only [initialValue, hread]
    rfl
  · rw [VarType.valueOf_int]
    simp only [initialValue, hread]
    rfl
  · rw [VarType.valueOf_uint]
    simp only [initialValue, hread]
    rfl

/-- A float goes into an integer type by the conversion of the machine. -/
theorem initialValue_float {type : VarType} (htype : type ∈ [VarType.object, .int, .uint]) {t : Text}
    {x : Number.Real} (hread : Number.parse .double t = .ok x) :
    initialValue type (.float t) = .ok (type.valueOf (Value.ofReal x).toInt) := by
  simp only [List.mem_cons, List.not_mem_nil, or_false] at htype
  rcases htype with rfl | rfl | rfl <;> simp only [initialValue, hread] <;> rfl

/-- A numeric initial value is the value of the number that is written. -/
theorem initialValue_inv {type : VarType} (htype : type ∈ [VarType.object, .int, .uint])
    {a : Argument} (ha : a.Spelled) (hnumber : a.isNumber = true) {v : Value}
    (h : initialValue type a = .ok v) : ∃ n, a.Counts n ∧ v = type.valueOf n := by
  cases a with
  | int t =>
      cases hread : readWord t with
      | error e =>
          simp only [initialValue, hread] at h
          cases h
      | ok word =>
          -- every reader of the word looks at the number modulo 2 ^ 64
          rw [initialValue_int htype hread] at h
          obtain ⟨n, hn, hlow, hhigh, rfl⟩ := (readWord_iff ha).1 hread
          refine ⟨n, .int hn hlow hhigh, ?_⟩
          rw [← Except.ok.inj h, toNat_word, valueOf_emod]
  | float t =>
      cases hread : Number.parse .double t with
      | error e =>
          simp only [initialValue, hread] at h
          cases h
      | ok x =>
          rw [initialValue_float htype hread] at h
          exact ⟨_, .float hread, (Except.ok.inj h).symm⟩
  | bytes _ => cases hnumber
  | string _ => cases hnumber
  | ident _ => cases hnumber

/-- A section keeps what its item says. -/
theorem Gives.kept {item : Item} {s : Section} (h : Gives (itemSection item) s) (hitem : item.Spelled) :
    item.Kept s := by
  cases item with
  | global place isField name type value? =>
      obtain ⟨v, hkind, hid, hdata, hvalue⟩ := h.global_inv
      obtain ⟨hname, hvalues⟩ := hitem
      refine ⟨hkind, hid.identifies hname, fun a ha hnumber htype => ?_⟩
      obtain ⟨n, hn, rfl⟩ := initialValue_inv htype (hvalues a ha) hnumber (hvalue a ha)
      obtain ⟨hwell, hvtype, hkeeps⟩ := valueOf_keeps htype n
      exact ⟨n, _, hn, by rw [hdata, Gen.ofPayload_toPayload hwell], hvtype, hkeeps⟩
  | function place name params returns ks =>
      obtain ⟨labels, instrs, count, hplace, hcode, hkind, hcount, hid, hbody⟩ := h.function_inv
      obtain ⟨hname, hparams, hks⟩ := hitem
      refine ⟨hkind, hid.identifies hname, _, hbody, hparams.readByte hcount, rfl, fun hsize => ?_⟩
      obtain ⟨listing, hlisting, hlands⟩ := exists_labelsLand hplace hcode hsize
      have htells := hcode.code_tells hks
      rw [← hlisting, List.forall₂_map_right_iff] at htells
      exact ⟨listing, hlands.reads.decodes List.drop_zero rfl, hlands, htells⟩

/-- In every listing that is assembled the sections hold what is written. -/
theorem assembled_as_written {source : Text} {script : Script} {names : Names}
    (h : assemble source = .ok (script, names)) :
    ∃ its, parse source = .ok its ∧ List.Forall₂ Item.Kept its script.sections := by
  obtain ⟨its, hparse, hsections⟩ := assemble_inv h
  have hspelled := (List.forall₂_and_left its script.sections).2
    ⟨parse_spelled hparse, hsections.itemSections_inv⟩
  exact ⟨its, hparse, hspelled.imp fun _ _ ⟨hitem, hs⟩ => hs.kept hitem⟩

/-- A function with a number that its operand cuts, and a global with one that its type cuts. -/
def overfull : Text :=
  ".var g int 4294967299\n.func f 0 void\n PUSH 0x10\n CMP 257\n SET 7 2 [1 0xff]\n"

theorem overfull_as_written : ∃ script names, assemble overfull = .ok (script, names)
    ∧ script.sections.map (·.data) = [[5, 3, 0, 0, 0],
      [0, 0, 8, 16, 0, 0, 0, 0, 0, 0, 0, 48, 1, 130, 7, 0, 0, 0, 0, 0, 0, 0, 2, 0, 0, 0, 0, 0, 0, 0, 1, 255]]
    ∧ ∃ its, parse overfull = .ok its ∧ List.Forall₂ Item.Kept its script.sections := by
  have hdata : (assemble overfull).toOption.map (fun result => result.1.sections.map (·.data))
      = some [[5, 3, 0, 0, 0],
        [0, 0, 8, 16, 0, 0, 0, 0, 0, 0, 0, 48, 1, 130, 7, 0, 0, 0, 0, 0, 0, 0, 2, 0, 0, 0, 0, 0, 0, 0, 1,
          255]] := by
    decide +kernel
  cases h : assemble overfull with
  | error e =>
      rw [h] at hdata
      cases hdata
  | ok result =>
      obtain ⟨script, names⟩ := result
      rw [h] at hdata
      exact ⟨script, names, rfl, Option.some.inj hdata, assembled_as_written h⟩

end Listing

end TickScript
