import TickScript.Proofs.Unit

/-!
# Generated code is well formed

A function's code can be read instruction after instruction from its start to its end, its last
instruction returns, and every jump leads to the start of an instruction. Jumps are the point: bodies
are generated on their own and put together later, so each piece of code is closed, its jumps leading
to starts of its own instructions or to its end. Closed pieces put one behind the other are closed,
and so are the layouts of branches and loops, whose distances are the sizes of closed pieces. Behind
the last closed piece stands a return, so no jump of a function leads out of it.

Three kinds of code are told apart. `Straight` code has no jumps and is closed for that reason
alone; expressions, starts of variables and the code around a return are of this kind. `Sound` code
may have jumps, all to its own instructions or its end. `Returns` code is sound code with a return
behind it to which no jump leads except at its start; a function is of this kind, since the
generator puts a return behind every body that does not end in one. That each instruction can be
written and read back is carried along as `Lawful`, and only at the end becomes a statement about
bytes.
-/

namespace TickScript

/-! ## What is said of code -/

/-- Reading code from an offset to its end gives these instructions, each with its offset. -/
inductive Decodes (code : Text) : Nat → List (Nat × Instr) → Prop
  | stop : Decodes code code.length []
  | next {offset i rest} : Instr.decodeAt code (offset : Nat) = .ok i →
    Decodes code (offset + i.size) rest → Decodes code offset ((offset, i) :: rest)

/-- Each entry of the listing is what stands at its offset. -/
theorem Decodes.decodeAt {code : Text} {offset : Nat} {listing : List (Nat × Instr)}
    (h : Decodes code offset listing) {entry : Nat × Instr} (hentry : entry ∈ listing) :
    Instr.decodeAt code (entry.1 : Nat) = .ok entry.2 := by
  induction h with
  | stop => cases hentry
  | next hdecode _ ih =>
      obtain rfl | hrest := List.mem_cons.1 hentry
      · exact hdecode
      · exact ih hrest

/-- The operands of an instruction that are ids. -/
def Instr.ids (i : Instr) : List Id :=
  (i.op.operands.zip i.operands).filterMap fun pair =>
    if pair.1 = Operand.id then some pair.2 else none

/-- What holds of every generated instruction. -/
structure Instr.Regular (i : Instr) : Prop where
  /-- No absolute jump. -/
  relative : i.op.isJump = true → i.op.isRelative = true
  /-- The type of an allocation is one of those from object to uint. -/
  type : i.op = .allocate → ∃ word, i.operands[1]? = some word ∧ 1 ≤ word.toInt ∧ word.toInt ≤ 6
  method : i.op = .compare → ∃ word, i.operands[0]? = some word ∧ 0 ≤ word.toInt ∧ word.toInt ≤ 5
  connective : i.op = .combine → ∃ word, i.operands[0]? = some word
    ∧ 0 ≤ word.toInt ∧ word.toInt ≤ 1
  /-- A negative id is one of the two objects, and only pushed. -/
  negative : ∀ id ∈ i.ids, id.toInt < 0 →
    i.op = .pushVar ∧ (id = Name.nullObject ∨ id = Name.attachedObject)

/-- Code that reads as a listing in which every jump leads to an instruction. -/
structure WellFormedCode (code : Text) (listing : List (Nat × Instr)) : Prop where
  /-- The code decodes from the first byte to the last. -/
  decodes : Decodes code 0 listing
  /-- The last instruction returns. -/
  last : listing.getLast?.map (·.2) = some (.plain .ret)
  /-- Every operand is one that the machine knows. -/
  regular : ∀ entry ∈ listing, entry.2.Regular
  /-- Every relative jump leads to an instruction. -/
  targets : ∀ entry ∈ listing, entry.2.op.isRelative = true →
    ∃ target ∈ listing, (target.1 : Int) = entry.2.target entry.1

/-! ## Listings -/

namespace Instr

/-- Instructions with their offsets, the first of which is given. -/
def listing : Nat → List Instr → List (Nat × Instr)
  | _, [] => []
  | offset, i :: rest => (offset, i) :: listing (offset + i.size) rest

/-- An entry of a listing stands behind code of the size of its offset. -/
theorem mem_listing {offset : Nat} {code : List Instr} {entry : Nat × Instr}
    (h : entry ∈ listing offset code) :
    ∃ before after, code = before ++ entry.2 :: after ∧ entry.1 = offset + sizeAll before := by
  induction code generalizing offset with
  | nil => cases h
  | cons i rest ih =>
      rcases List.mem_cons.mp h with rfl | h
      · exact ⟨[], rest, rfl, rfl⟩
      · obtain ⟨before, after, rfl, hoffset⟩ := ih h
        refine ⟨i :: before, after, rfl, ?_⟩
        rw [hoffset, sizeAll]
        omega

/-- Code behind other code is listed from where that ends. -/
theorem listing_append (offset : Nat) (a b : List Instr) :
    listing offset (a ++ b) = listing offset a ++ listing (offset + sizeAll a) b := by
  induction a generalizing offset with
  | nil => rfl
  | cons i a ih => simp only [List.cons_append, listing, ih, sizeAll, Nat.add_assoc]

/-- Code that lies in bytes up to their end is what the decoder reads there. -/
theorem decodes_of_placed {bytes : Text} (hlong : bytes.length < 2 ^ 63) {code : List Instr}
    {offset : Nat} (hplaced : Placed bytes offset code)
    (hend : offset + sizeAll code = bytes.length) : Decodes bytes offset (listing offset code) := by
  induction code generalizing offset with
  | nil =>
      obtain rfl : offset = bytes.length := by simpa [sizeAll] using hend
      exact .stop
  | cons i rest ih =>
      refine .next ?_ (ih hplaced.tail (by rw [← hend, sizeAll]; omega))
      obtain ⟨hencodable, after, hdrop⟩ := hplaced.head.drop_eq
      have hsize := hplaced.head.offset_add_size_le
      rw [decodeAt_natCast, hdrop, hencodable.decodeHead offset after (by omega)]
      rfl

end Instr

namespace Gen

/-! ## Closed code -/

/-- All relative jumps of code that starts at an offset lead to where `P` holds. -/
def JumpsTo (P : Int → Prop) : Nat → Code → Prop
  | _, [] => True
  | offset, i :: rest =>
    (i.op.isRelative = true → P (i.target offset)) ∧ JumpsTo P (offset + i.size) rest

/-- An instruction of the code, or its end, has the offset. -/
def Boundary (code : Code) (offset : Int) : Prop :=
  ∃ before after, code = before ++ after ∧ (Instr.sizeAll before : Int) = offset

/-- Code whose jumps lead to its own instructions or its end. -/
def Closed (code : Code) : Prop := JumpsTo (Boundary code) 0 code

/-- The jumps of two parts are those of each of them, at its own offset. -/
theorem jumpsTo_append {P : Int → Prop} {offset : Nat} {a b : Code} :
    JumpsTo P offset (a ++ b) ↔ JumpsTo P offset a ∧ JumpsTo P (offset + Instr.sizeAll a) b := by
  induction a generalizing offset with
  | nil => simp [JumpsTo, Instr.sizeAll]
  | cons i a ih =>
      simp only [List.cons_append, JumpsTo, ih, Instr.sizeAll, and_assoc, Nat.add_assoc]

/-- Code that is moved takes its jumps along. -/
theorem JumpsTo.shift {P Q : Int → Prop} {offset : Nat} {code : Code} (h : JumpsTo P offset code)
    (distance : Nat) (hPQ : ∀ t, P t → Q (t + distance)) : JumpsTo Q (offset + distance) code := by
  induction code generalizing offset with
  | nil => trivial
  | cons i rest ih =>
      obtain ⟨hi, hrest⟩ := h
      refine ⟨fun hrel => ?_, ?_⟩
      · have htarget : i.target (offset + distance) = i.target offset + distance := by
          simp only [Instr.target, hrel, if_true]
          push_cast
          omega
        rw [htarget]
        exact hPQ _ (hi hrel)
      · rw [Nat.add_right_comm]
        exact ih hrest

/-- Every relative jump of the listing has its target among the allowed ones. -/
theorem JumpsTo.target {P : Int → Prop} {offset : Nat} {code : Code} (h : JumpsTo P offset code)
    {entry : Nat × Instr} (hentry : entry ∈ Instr.listing offset code)
    (hrel : entry.2.op.isRelative = true) : P (entry.2.target entry.1) := by
  induction code generalizing offset with
  | nil => cases hentry
  | cons i rest ih =>
      rcases List.mem_cons.mp hentry with rfl | hentry
      · exact h.1 hrel
      · exact ih h.2 hentry

/-- Code without jumps jumps nowhere. -/
theorem jumpsTo_of_plain {P : Int → Prop} {offset : Nat} {code : Code}
    (h : ∀ i ∈ code, i.op.isRelative = false) : JumpsTo P offset code := by
  induction code generalizing offset with
  | nil => trivial
  | cons i rest ih =>
      refine ⟨fun hrel => ?_, ih fun j hj => h j (by simp [hj])⟩
      rw [h i (by simp)] at hrel
      cases hrel

/-- So it is closed by itself. -/
theorem closed_of_plain {code : Code} (h : ∀ i ∈ code, i.op.isRelative = false) : Closed code :=
  jumpsTo_of_plain h

/-- A closed piece as a part of other code. -/
theorem Closed.within {code whole : Code} {offset : Nat} (h : Closed code) (before after : Code)
    (hwhole : whole = before ++ code ++ after) (hoffset : offset = Instr.sizeAll before) :
    JumpsTo (Boundary whole) offset code := by
  subst hwhole hoffset
  have hshift := h.shift (Instr.sizeAll before) (Q := Boundary (before ++ code ++ after)) ?_
  · simpa using hshift
  · rintro t ⟨first, rest, rfl, rfl⟩
    refine ⟨before ++ first, rest ++ after, by simp, ?_⟩
    rw [Instr.sizeAll_append]
    push_cast
    omega

/-- Closed pieces stay closed in a row: a jump to the end of the first is one to the start of the
second. -/
theorem Closed.append {a b : Code} (ha : Closed a) (hb : Closed b) : Closed (a ++ b) :=
  jumpsTo_append.mpr ⟨ha.within [] b rfl rfl, hb.within a [] (by simp) (by simp)⟩

theorem Closed.cons {i : Instr} {code : Code} (hi : i.op.isRelative = false) (h : Closed code) :
    Closed (i :: code) :=
  Closed.append (a := [i]) (closed_of_plain (by simpa using hi)) h

/-- A jump to a place in code that it is a part of. -/
theorem jumpsTo_jumpInstr {whole : Code} {op : Opcode} {distance : Int} {offset : Nat}
    (hop : op = .jumpBy ∨ op = .jumpIfBy) (hdistance : Reachable distance) (before after : Code)
    (hwhole : whole = before ++ after)
    (htarget : (Instr.sizeAll before : Int) = offset + 3 + distance) :
    JumpsTo (Boundary whole) offset [jumpInstr op distance] := by
  have hword : (Int64.ofInt distance).toInt = distance :=
    Int64.toInt_ofInt_of_le (by have := hdistance.1; omega) (by have := hdistance.2; omega)
  have hleads : (jumpInstr op distance).target offset = offset + 3 + distance := by
    have hrel : (jumpInstr op distance).op.isRelative = true := by rcases hop with rfl | rfl <;> rfl
    have hsize : (jumpInstr op distance).size = 3 := by rcases hop with rfl | rfl <;> rfl
    have hfirst : (jumpInstr op distance).operands.head?.getD 0 = Int64.ofInt distance := rfl
    rw [Instr.target, if_pos hrel, hfirst, hword, hsize]
    rfl
  exact ⟨fun _ => ⟨before, after, hwhole, by rw [htarget, hleads]⟩, trivial⟩

/-- The three jumps of a branch lead to the body, behind the body and behind the tail. -/
theorem closed_branchLayout {test body tail : Code} (htest : Closed test) (hbody : Closed body)
    (htail : Closed tail) (hfits : BranchFits body tail) :
    Closed (branchLayout test body tail) := by
  -- the jump over the tail, if there is a tail
  obtain ⟨exit, hexit⟩ : ∃ exit : Code, exit
      = if tail.isEmpty then [] else [jumpInstr .jumpBy (Instr.sizeAll tail)] := ⟨_, rfl⟩
  have hsize : skipSize body tail = Instr.sizeAll body + Instr.sizeAll exit := by
    rw [skipSize, hexit]
    split <;> rfl
  have hjump (distance : Int) : Instr.sizeAll [jumpInstr .jumpBy distance] = 3 := rfl
  have hjumpIf (distance : Int) : Instr.sizeAll [jumpInstr .jumpIfBy distance] = 3 := rfl
  let enter : Code := .plain .setFlag :: test ++ [jumpInstr .jumpIfBy relativeJumpSize]
    ++ [jumpInstr .jumpBy (skipSize body tail)]
  rw [Closed, branchLayout, ← hexit]
  refine jumpsTo_append.mpr ⟨jumpsTo_append.mpr ⟨jumpsTo_append.mpr ⟨jumpsTo_append.mpr
    ⟨jumpsTo_append.mpr ⟨?_, ?_⟩, ?_⟩, ?_⟩, ?_⟩, ?_⟩
  · exact (htest.cons (i := .plain .setFlag) rfl).within [] _ (by simp; rfl) rfl
  · refine jumpsTo_jumpInstr (.inr rfl) ⟨by decide, by decide⟩ enter (body ++ exit ++ tail)
      (by simp [enter]) ?_
    simp only [enter, Instr.sizeAll_append, hjump, hjumpIf, relativeJumpSize]
    push_cast
    omega
  · refine jumpsTo_jumpInstr (.inl rfl) hfits.skip (enter ++ body ++ exit) tail (by simp [enter]) ?_
    simp only [enter, Instr.sizeAll_append, hjump, hjumpIf, hsize]
    push_cast
    omega
  · exact hbody.within enter (exit ++ tail) (by simp [enter]) (by simp [enter])
  · subst hexit
    cases hempty : tail.isEmpty with
    | true => trivial
    | false =>
        simp only [Bool.false_eq_true, if_false]
        refine jumpsTo_jumpInstr (.inl rfl) (hfits.exit hempty) _ [] (List.append_nil _).symm ?_
        simp only [Instr.sizeAll_append, hjump, hjumpIf]
        push_cast
        omega
  · exact htail.within (enter ++ body ++ exit) [] (by simp [enter]) (by simp [enter])

/-- The jumps of a loop lead to its test and back to its body. -/
theorem closed_loopLayout {kind : LoopKind} {inner test : Code} (hinner : Closed inner)
    (htest : Closed test) (hfits : LoopFits kind inner test) :
    Closed (loopLayout kind inner test) := by
  -- the jump to the test, unless the loop enters at its body
  obtain ⟨forward, hforward⟩ : ∃ forward : Code, forward
      = if kind = .doWhile then [] else [jumpInstr .jumpBy (Instr.sizeAll inner)] := ⟨_, rfl⟩
  let again : Code := .plain .setFlag :: test ++ [jumpInstr .jumpIfBy (backDistance inner test)]
  have hsave (rest : Code) : Instr.sizeAll (.plain .saveCompare :: rest) = 1 + Instr.sizeAll rest :=
    rfl
  have hflag : Instr.sizeAll (.plain .setFlag :: test) = 1 + Instr.sizeAll test := rfl
  rw [Closed, loopLayout, ← hforward]
  refine jumpsTo_append.mpr ⟨jumpsTo_append.mpr ⟨jumpsTo_append.mpr ⟨⟨?_, ?_⟩, ?_⟩,
    jumpsTo_append.mpr ⟨?_, ?_⟩⟩, jumpsTo_of_plain (by decide)⟩
  · rintro ⟨⟩
  · subst hforward
    split
    · trivial
    · next hkind =>
        have hjump : Instr.sizeAll [jumpInstr .jumpBy (Instr.sizeAll inner)] = 3 := rfl
        have hfirst : (Instr.plain .saveCompare).size = 1 := rfl
        refine jumpsTo_jumpInstr (.inl rfl) (hfits.forward hkind)
          (.plain .saveCompare :: ([jumpInstr .jumpBy (Instr.sizeAll inner)] ++ inner))
          (again ++ [.plain .restoreCompare]) (by simp [again]) ?_
        rw [hsave, Instr.sizeAll_append, hjump, hfirst]
        push_cast
        omega
  · exact hinner.within (.plain .saveCompare :: forward) (again ++ [.plain .restoreCompare])
      (by simp [again]) (by simp)
  · exact (htest.cons (i := .plain .setFlag) rfl).within (.plain .saveCompare :: forward ++ inner)
      ([jumpInstr .jumpIfBy (backDistance inner test)] ++ [.plain .restoreCompare]) (by simp)
      (by simp)
  · refine jumpsTo_jumpInstr (.inr rfl) hfits.back (.plain .saveCompare :: forward)
      (inner ++ again ++ [.plain .restoreCompare]) (by simp [again]) ?_
    simp only [Instr.sizeAll_append, hsave, hflag, backDistance, relativeJumpSize]
    push_cast
    omega

/-! ## Lawful instructions -/

/-- An instruction as generated code has it; it can be written unless its data is longer than any
address. -/
structure Lawful (i : Instr) : Prop extends i.Regular where
  encodable : i.data.length < 2 ^ 63 → i.Encodable

/-- The operations that no rule but the one on negative ids speaks of. -/
def isOrdinary : Opcode → Bool
  | .jump | .jumpBy | .jumpIf | .jumpIfBy | .allocate | .compare | .combine => false
  | _ => true

/-- An ordinary opcode has at most ids as operands, so only the two special ids can be negative. -/
theorem regular_of_ordinary {i : Instr} (hop : isOrdinary i.op = true)
    (hids : ∀ id ∈ i.ids, id.toInt < 0 →
      i.op = .pushVar ∧ (id = Name.nullObject ∨ id = Name.attachedObject)) : i.Regular := by
  refine ⟨fun h => ?_, fun h => ?_, fun h => ?_, fun h => ?_, hids⟩
  · generalize i.op = op at hop h
    cases op <;> simp_all [isOrdinary, Opcode.isJump]
  · rw [h] at hop
    cases hop
  · rw [h] at hop
    cases hop
  · rw [h] at hop
    cases hop

theorem ordinary_of_operands {op : Opcode} (hop : op.operands = [] ∨ op.operands = [.id]) :
    isOrdinary op = true := by
  cases op <;> simp_all [isOrdinary, Opcode.operands, Operand.id, Operand.address,
    Operand.distance, Operand.size]

theorem not_relative_of_ordinary {op : Opcode} (hop : isOrdinary op = true) :
    op.isRelative = false := by
  cases op <;> first | rfl | cases hop

theorem lawful_plain {op : Opcode} (hop : op.operands = []) : Lawful (.plain op) :=
  ⟨regular_of_ordinary (ordinary_of_operands (.inl hop)) (by simp [Instr.ids, Instr.plain]),
    fun _ => Instr.encodable_plain hop⟩

theorem lawful_withId {op : Opcode} {id : Id} (hop : op.operands = [.id])
    (hid : id.toInt < 0 → op = .pushVar ∧ (id = Name.nullObject ∨ id = Name.attachedObject)) :
    Lawful (.withWord op id) := by
  refine ⟨regular_of_ordinary (ordinary_of_operands (.inr hop)) fun id' h hneg => ?_,
    fun _ => Instr.encodable_withWord hop trivial⟩
  obtain rfl : id' = id := by simpa [Instr.ids, Instr.withWord, hop] using h
  exact hid hneg

theorem lawful_push (word : UInt64) : Lawful (.push word) :=
  ⟨regular_of_ordinary rfl (by simp [Instr.ids, Instr.push, Instr.withWord, Opcode.operands,
    Operand.word, Operand.id]), fun _ => Instr.encodable_push word⟩

theorem lawful_compare (relation : Relation) : Lawful (.compare relation) where
  relative h := by cases h
  type h := by cases h
  method _ := ⟨_, rfl, by cases relation <;> decide, by cases relation <;> decide⟩
  connective h := by cases h
  negative id h := by simp [Instr.ids, Instr.compare, Instr.withWord, Opcode.operands,
    Operand.id] at h
  encodable _ := Instr.encodable_compare relation

theorem lawful_combine (connective : Connective) : Lawful (.combine connective) where
  relative h := by cases h
  type h := by cases h
  method h := by cases h
  connective _ := ⟨_, rfl, by cases connective <;> decide, by cases connective <;> decide⟩
  negative id h := by simp [Instr.ids, Instr.combine, Instr.withWord, Opcode.operands,
    Operand.id] at h
  encodable _ := Instr.encodable_combine connective

/-- An allocation is lawful for a type that can be stored and the id of a name. -/
theorem lawful_allocate {size : UInt64} {type : VarType} {id : Id} (htype : type.Storable)
    (hid : 0 ≤ id.toInt) : Lawful (.allocate size type id) where
  relative h := by cases h
  type _ := by
    refine ⟨_, rfl, ?_⟩
    rw [Instr.toInt_byte]
    rcases htype.cases with rfl | rfl | rfl | rfl | rfl | rfl <;> decide
  method h := by cases h
  connective h := by cases h
  negative id' h hneg := by
    obtain rfl : id' = id := by
      simpa [Instr.ids, Instr.allocate, Opcode.operands, Operand.id, Operand.size] using h
    omega
  encodable _ := Instr.encodable_allocate size type id

theorem lawful_set {id : Id} {data : Text} (hid : 0 ≤ id.toInt) : Lawful (.set id data) := by
  refine ⟨regular_of_ordinary rfl fun id' h hneg => ?_, Instr.encodable_set⟩
  obtain rfl : id' = id := by
    simpa [Instr.ids, Instr.set, Opcode.operands, Operand.id, Operand.size] using h
  omega

/-- A relative jump is lawful within the reach of its operand. -/
theorem lawful_jumpInstr {op : Opcode} {distance : Int} (hop : op = .jumpBy ∨ op = .jumpIfBy)
    (hdistance : Reachable distance) : Lawful (jumpInstr op distance) where
  relative _ := by rcases hop with rfl | rfl <;> rfl
  type h := by rcases hop with rfl | rfl <;> cases h
  method h := by rcases hop with rfl | rfl <;> cases h
  connective h := by rcases hop with rfl | rfl <;> cases h
  negative id h := by
    rcases hop with rfl | rfl <;>
      simp [Instr.ids, jumpInstr, Instr.withWord, Opcode.operands, Operand.distance, Operand.id] at h
  encodable _ := by
    have hword : (Int64.ofInt distance).toInt = distance :=
      Int64.toInt_ofInt_of_le (by have := hdistance.1; omega) (by have := hdistance.2; omega)
    have hholds : Operand.distance.Holds (Int64.ofInt distance) := by
      simpa [Operand.Holds, Operand.distance, hword] using ⟨hdistance.1, hdistance.2⟩
    rcases hop with rfl | rfl <;> exact Instr.encodable_withWord rfl hholds

/-! ## Expressions -/

/-- Lawful code without jumps. -/
def Straight (code : Code) : Prop := ∀ i ∈ code, Lawful i ∧ i.op.isRelative = false

@[simp] theorem straight_nil : Straight [] := by simp [Straight]

@[simp] theorem straight_cons {i : Instr} {code : Code} :
    Straight (i :: code) ↔ (Lawful i ∧ i.op.isRelative = false) ∧ Straight code := by
  simp [Straight]

@[simp] theorem straight_append {a b : Code} : Straight (a ++ b) ↔ Straight a ∧ Straight b := by
  simp only [Straight, List.mem_append, or_imp, forall_and]
  tauto

theorem straight_plain {op : Opcode} (hop : op.operands = []) : Straight [.plain op] := by
  have hordinary := ordinary_of_operands (.inl hop)
  exact straight_cons.mpr ⟨⟨lawful_plain hop, not_relative_of_ordinary hordinary⟩, straight_nil⟩

theorem straight_withId {op : Opcode} {id : Id} (hop : op.operands = [.id])
    (hid : id.toInt < 0 → op = .pushVar ∧ (id = Name.nullObject ∨ id = Name.attachedObject)) :
    Straight [.withWord op id] := by
  have hordinary := ordinary_of_operands (.inr hop)
  exact straight_cons.mpr
    ⟨⟨lawful_withId hop hid, not_relative_of_ordinary hordinary⟩, straight_nil⟩

theorem straight_literalCode (v : Value) : Straight (literalCode v) := by
  intro i hi
  simp only [literalCode, Instr.literal, List.mem_append, List.mem_map, List.mem_cons,
    List.not_mem_nil, or_false] at hi
  rcases hi with ⟨word, -, rfl⟩ | rfl | rfl
  · exact ⟨lawful_push word, rfl⟩
  · exact ⟨lawful_push _, rfl⟩
  · exact ⟨lawful_push _, rfl⟩

theorem straight_compareZero (relation : Relation) : Straight (compareZero relation) :=
  straight_append.mpr ⟨straight_literalCode _,
    straight_cons.mpr ⟨⟨lawful_compare relation, rfl⟩, straight_nil⟩⟩

theorem straight_fromValue {want : Want} {code : Code} (h : Straight code) :
    Straight (fromValue want code) := by
  cases want with
  | value => exact h
  | truth => exact straight_append.mpr ⟨h, straight_compareZero _⟩
  | effect => exact straight_append.mpr ⟨h, straight_plain rfl⟩

theorem straight_fromTruth {want : Want} {code : Code} (h : Straight code) :
    Straight (fromTruth want code) := by
  cases want with
  | value => exact straight_append.mpr ⟨h, straight_plain rfl⟩
  | truth => exact h
  | effect => exact straight_append.mpr ⟨h, straight_append (a := [_]).mpr
      ⟨straight_plain rfl, straight_plain rfl⟩⟩

/-- No variable that can be seen has a negative id. -/
structure Nonnegative (u : Tables) (Γ : List Symbol) : Prop where
  visible : ∀ symbol ∈ Γ, 0 ≤ symbol.id.toInt
  global : ∀ name symbol, u.globals.get? name = some symbol → 0 ≤ symbol.id.toInt

/-- Whatever a name resolves to has the id of a name. -/
theorem Nonnegative.resolves {u : Tables} {Γ : List Symbol} (h : Nonnegative u Γ) {name : Text}
    {symbol : Symbol} (hresolves : Resolves u Γ name symbol) : 0 ≤ symbol.id.toInt := by
  cases hresolves with
  | visible hfind => exact h.visible symbol (List.mem_reverse.mp (List.mem_of_find?_eq_some hfind))
  | global _ hget => exact h.global name symbol hget

theorem straight_variable {op : Opcode} {id : Id} (hop : op.operands = [.id]) (hid : 0 ≤ id.toInt) :
    Straight [.withWord op id] :=
  straight_withId hop fun hneg => by omega

theorem operands_of_arithmetic {kind : TokenKind} {op : Opcode} (h : kind.arithmetic? = some op) :
    op.operands = [] := by
  cases kind <;> first | cases h; rfl | cases h

theorem operands_of_compound {kind : TokenKind} {op : Opcode} (h : kind.compound? = some op) :
    op.operands = [] := by
  cases kind <;> first | cases h; rfl | cases h

theorem operands_of_objectOperation {kind : TokenKind} {op : Opcode}
    (h : kind.objectOperation? = some op) : op.operands = [] := by
  cases kind <;> first | cases h; rfl | cases h

theorem straight_stepLayout {operator : Token} {id : Id} {after : Bool} {want : Want}
    (hid : 0 ≤ id.toInt) : Straight (stepLayout operator id after want) := by
  have hload : Straight [.withWord .pushVar id] := straight_variable rfl hid
  have hstore : Straight [.withWord .popVar id] := straight_variable rfl hid
  have hop : Straight [.plain (if operator.kind = .decrement then .sub else .add)] := by
    split <;> exact straight_plain rfl
  have hchange := straight_append.mpr ⟨straight_append.mpr ⟨hload, straight_literalCode (.ofInt 1)⟩,
    straight_append.mpr ⟨hop, hstore⟩⟩
  simp only [stepLayout]
  split
  · exact hchange
  · split
    · exact straight_fromValue (straight_append.mpr ⟨hload, hchange⟩)
    · exact straight_fromValue (straight_append.mpr ⟨hchange, hload⟩)

theorem straight_assignLayout {id : Id} {want : Want} {code : Code} (hid : 0 ≤ id.toInt)
    (h : Straight code) : Straight (assignLayout id want code) := by
  have hload : Straight [.withWord .pushVar id] := straight_variable rfl hid
  have hstore : Straight [.withWord .popVar id] := straight_variable rfl hid
  simp only [assignLayout]
  split
  · exact straight_append.mpr ⟨h, hstore⟩
  · exact straight_fromValue (straight_append.mpr ⟨h, straight_append (a := [_]).mpr ⟨hstore, hload⟩⟩)

/-- Expressions compile to lawful code without jumps. -/
theorem straight_exprCode {u : Tables} {Γ : List Symbol} {piece : ExprPiece} {code : Code}
    (h : ExprCode u Γ piece code) (hΓ : Nonnegative u Γ) : Straight code := by
  -- every piece puts straight pieces one behind the other, and adds instructions with lawful operands
  induction h with
  | ident hresolves => exact straight_fromValue (straight_variable rfl (hΓ.resolves hresolves))
  | number => exact straight_fromValue (straight_literalCode _)
  | string => exact straight_fromValue (straight_literalCode _)
  | true_ => exact straight_fromValue (straight_literalCode _)
  | false_ => exact straight_fromValue (straight_literalCode _)
  | null => exact straight_fromValue (straight_withId rfl fun _ => ⟨rfl, .inl rfl⟩)
  | attached => exact straight_fromValue (straight_withId rfl fun _ => ⟨rfl, .inr rfl⟩)
  | minusNumber => exact straight_fromValue (straight_literalCode _)
  | minus _ _ _ ih =>
      exact straight_fromValue (straight_append.mpr
        ⟨straight_append.mpr ⟨straight_literalCode _, ih⟩, straight_plain rfl⟩)
  | tilde _ _ ih =>
      exact straight_fromValue (straight_append.mpr
        ⟨straight_append.mpr ⟨ih, straight_literalCode _⟩, straight_plain rfl⟩)
  | bang _ _ ih => exact straight_fromTruth (straight_append.mpr ⟨ih, straight_compareZero _⟩)
  | plus _ _ _ _ ih => exact straight_fromValue ih
  | step hresolves => exact straight_stepLayout (hΓ.resolves hresolves)
  | relation _ _ _ ihleft ihright =>
      exact straight_fromTruth (straight_append.mpr ⟨straight_append.mpr ⟨ihleft, ihright⟩,
        straight_cons.mpr ⟨⟨lawful_compare _, rfl⟩, straight_nil⟩⟩)
  | connective _ _ _ _ ihleft ihright =>
      exact straight_fromTruth (straight_append.mpr ⟨straight_append.mpr ⟨straight_append.mpr
        ⟨ihleft, straight_plain rfl⟩, ihright⟩,
        straight_cons.mpr ⟨⟨lawful_combine _, rfl⟩, straight_nil⟩⟩)
  | arithmetic _ _ hop _ _ ihleft ihright =>
      exact straight_fromValue (straight_append.mpr ⟨straight_append.mpr ⟨ihleft, ihright⟩,
        straight_plain (operands_of_arithmetic hop)⟩)
  | assign _ hresolves _ ih => exact straight_assignLayout (hΓ.resolves hresolves) ih
  | compound hop hresolves _ ih =>
      have hid := hΓ.resolves hresolves
      exact straight_assignLayout hid (straight_append.mpr ⟨straight_append (a := [_]).mpr
        ⟨straight_variable rfl hid, ih⟩, straight_plain (operands_of_compound hop)⟩)
  | object hop _ ih =>
      exact straight_fromValue (straight_append.mpr
        ⟨ih, straight_plain (operands_of_objectOperation hop)⟩)
  | call _ _ _ _ _ ih =>
      exact straight_fromValue (straight_append.mpr
        ⟨ih, straight_variable rfl (Name.id_nonneg _)⟩)
  | nil => exact straight_nil
  | cons _ _ ihfirst ihmore => exact straight_append.mpr ⟨ihfirst, ihmore⟩

/-! ## Statements -/

/-- Lawful and closed code. -/
structure Sound (code : Code) : Prop where
  lawful : ∀ i ∈ code, Lawful i
  closed : Closed code

/-- Straight code is sound: it is closed for want of jumps. -/
theorem Straight.sound {code : Code} (h : Straight code) : Sound code :=
  ⟨fun i hi => (h i hi).1, closed_of_plain fun i hi => (h i hi).2⟩

/-- Sound pieces of code are sound one behind the other. -/
theorem Sound.append {a b : Code} (ha : Sound a) (hb : Sound b) : Sound (a ++ b) :=
  ⟨fun i hi => (List.mem_append.mp hi).elim (ha.lawful i) (hb.lawful i), ha.closed.append hb.closed⟩

/-- The layout of a branch is sound if its parts are and its distances fit. -/
theorem Sound.branchLayout {test body tail : Code} (htest : Sound test) (hbody : Sound body)
    (htail : Sound tail) (hfits : BranchFits body tail) : Sound (branchLayout test body tail) := by
  refine ⟨fun i hi => ?_, closed_branchLayout htest.closed hbody.closed htail.closed hfits⟩
  simp only [Gen.branchLayout, List.cons_append, List.append_assoc, List.mem_cons, List.mem_append,
    List.not_mem_nil, false_or] at hi
  rcases hi with rfl | hi | rfl | rfl | hi | hi | hi
  · exact lawful_plain rfl
  · exact htest.lawful i hi
  · exact lawful_jumpInstr (.inr rfl) ⟨by decide, by decide⟩
  · exact lawful_jumpInstr (.inl rfl) hfits.skip
  · exact hbody.lawful i hi
  · cases hempty : tail.isEmpty with
    | true => simp [hempty] at hi
    | false =>
        obtain rfl : i = jumpInstr .jumpBy (Instr.sizeAll tail) := by simpa [hempty] using hi
        exact lawful_jumpInstr (.inl rfl) (hfits.exit hempty)
  · exact htail.lawful i hi

/-- The same holds of loops. -/
theorem Sound.loopLayout {kind : LoopKind} {inner test : Code} (hinner : Sound inner)
    (htest : Sound test) (hfits : LoopFits kind inner test) : Sound (loopLayout kind inner test) := by
  refine ⟨fun i hi => ?_, closed_loopLayout hinner.closed htest.closed hfits⟩
  simp only [Gen.loopLayout, List.cons_append, List.append_assoc, List.mem_cons, List.mem_append,
    List.not_mem_nil, or_false, false_or] at hi
  rcases hi with rfl | hi | hi | rfl | hi | rfl | rfl
  · exact lawful_plain rfl
  · split at hi
    · cases hi
    · next hkind =>
        obtain rfl := List.mem_singleton.mp hi
        exact lawful_jumpInstr (.inl rfl) (hfits.forward hkind)
  · exact hinner.lawful i hi
  · exact lawful_plain rfl
  · exact htest.lawful i hi
  · exact lawful_jumpInstr (.inr rfl) hfits.back
  · exact lawful_plain rfl

theorem straight_freeCode {freed : List Id} (h : ∀ id ∈ freed, 0 ≤ id.toInt) :
    Straight (freeCode freed) := by
  intro i hi
  obtain ⟨id, hid, rfl⟩ := List.mem_map.mp hi
  exact ⟨lawful_withId rfl fun hneg => absurd (h id hid) (by omega), rfl⟩

theorem Nonnegative.ids {u : Tables} {Γ : List Symbol} (h : Nonnegative u Γ) :
    ∀ id ∈ (ids Γ).reverse, 0 ≤ id.toInt := by
  intro id hid
  obtain ⟨symbol, hsymbol, rfl⟩ := List.mem_map.mp (List.mem_reverse.mp hid)
  exact h.visible symbol hsymbol

theorem Nonnegative.right {u : Tables} {Γ Δ : List Symbol} (h : Nonnegative u (Γ ++ Δ)) :
    Nonnegative u Δ :=
  ⟨fun symbol hsymbol => h.visible symbol (List.mem_append_right Γ hsymbol), h.global⟩

theorem Nonnegative.snoc {u : Tables} {Γ : List Symbol} {symbol : Symbol} (h : Nonnegative u Γ)
    (hid : 0 ≤ symbol.id.toInt) : Nonnegative u (Γ ++ [symbol]) :=
  ⟨fun other hother => by
    rcases List.mem_append.mp hother with hother | hother
    · exact h.visible other hother
    · obtain rfl := List.mem_singleton.mp hother
      exact hid, h.global⟩

/-- Leaving a function frees ids of names and returns. -/
theorem straight_leaveLayout {returnType : VarType} {result : Code} {freed : List Id}
    (hresult : Straight result) (hfreed : ∀ id ∈ freed, 0 ≤ id.toInt) :
    Straight (leaveLayout returnType result freed) := by
  refine straight_append.mpr ⟨straight_append.mpr ⟨straight_append.mpr
    ⟨hresult, straight_freeCode hfreed⟩, ?_⟩, straight_plain rfl⟩
  split
  · exact straight_literalCode _
  · exact straight_nil

/-- A return is straight, since the result variable is allocated for a known type. -/
theorem straight_returnCode {u : Tables} {ctx : FunctionContext} {Γ : List Symbol}
    {e? : Option Expr} {code : Code} (h : ReturnCode u ctx Γ e? code) (hΓ : Nonnegative u Γ)
    (htype : ctx.returnType.isKnown = true) : Straight code := by
  cases h with
  | void => exact straight_leaveLayout straight_nil hΓ.ids
  | zero => exact straight_leaveLayout (straight_literalCode _) hΓ.ids
  | constant hvoid =>
      have hid := Name.id_nonneg (resultName ctx)
      refine straight_leaveLayout ?_ (List.forall_mem_cons.mpr ⟨hid, hΓ.ids⟩)
      exact straight_cons.mpr ⟨⟨lawful_allocate ⟨htype, hvoid⟩ hid, rfl⟩,
        straight_cons.mpr ⟨⟨lawful_set hid, rfl⟩, straight_variable rfl hid⟩⟩
  | value _ _ hcode => exact straight_leaveLayout (straight_exprCode hcode hΓ) hΓ.ids

theorem straight_initCode {u : Tables} {Γ : List Symbol} {symbol : Symbol} {init? : Option Expr}
    {code : Code} (h : InitCode u Γ symbol init? code) (hΓ : Nonnegative u Γ)
    (hid : 0 ≤ symbol.id.toInt) : Straight code := by
  cases h with
  | none => exact straight_nil
  | constant => exact straight_cons.mpr ⟨⟨lawful_set hid, rfl⟩, straight_nil⟩
  | value _ hcode =>
      exact straight_append.mpr ⟨straight_exprCode hcode hΓ, straight_variable rfl hid⟩

theorem straight_nextCode {u : Tables} {Γ : List Symbol} {kind : LoopKind} {step? : Option Expr}
    {code : Code} (h : NextCode u Γ kind step? code) (hΓ : Nonnegative u Γ) : Straight code := by
  cases h with
  | none => exact straight_nil
  | step _ hcode => exact straight_exprCode hcode hΓ

/-- The code of statements is sound, and the variables that they declare have lawful ids. -/
theorem sound_stmtCode {u : Tables} {ctx : FunctionContext} {outer inner inner' : List Symbol}
    {piece : StmtPiece} {code : Code} (h : StmtCode u ctx outer inner piece inner' code)
    (htype : ctx.returnType.isKnown = true) :
    Nonnegative u (outer ++ inner) → Nonnegative u (outer ++ inner') ∧ Sound code := by
  -- expressions are straight pieces; jumps come only from the layouts of branches and loops
  induction h with
  | @declare outer inner d symbol code hsymbol hstorable _ hinit =>
      intro hΓ
      have hid : 0 ≤ symbol.id.toInt := by
        rw [hsymbol]
        exact Name.id_nonneg _
      have hΓ' : Nonnegative u (outer ++ (inner ++ [symbol])) := by
        simpa using hΓ.snoc hid
      -- the variable is allocated, then its initial value is stored under its id
      have hcode := straight_initCode hinit hΓ' hid
      exact ⟨hΓ', (straight_cons.mpr ⟨⟨lawful_allocate hstorable hid, rfl⟩, hcode⟩).sound⟩
  | return_ hreturn => exact fun hΓ => ⟨hΓ, (straight_returnCode hreturn hΓ htype).sound⟩
  | truth hcode => exact fun hΓ => ⟨hΓ, (straight_exprCode hcode hΓ).sound⟩
  | effect _ _ hcode => exact fun hΓ => ⟨hΓ, (straight_exprCode hcode hΓ).sound⟩
  | nothing => exact fun hΓ => ⟨hΓ, straight_nil.sound⟩
  | ifElse htest _ _ hfits ihbody ihrest =>
      intro hΓ
      have hchain := (straight_exprCode htest hΓ).sound.branchLayout (ihbody hΓ).2 (ihrest hΓ).2 hfits
      exact ⟨hΓ, (((straight_plain rfl).sound).append hchain).append (straight_plain rfl).sound⟩
  | loop _ _ hnext htest hfits ihstart ihbody =>
      intro hΓ
      obtain ⟨hΓ', hprologue⟩ := ihstart (by simpa using hΓ)
      have hinner := (ihbody hΓ').2.append (straight_nextCode hnext hΓ').sound
      have hloop := hinner.loopLayout (straight_exprCode htest hΓ').sound hfits
      exact ⟨hΓ, (hprologue.append hloop).append (straight_freeCode hΓ'.right.ids).sound⟩
  | nil => exact fun hΓ => ⟨hΓ, straight_nil.sound⟩
  | cons _ _ ihfirst ihmore =>
      intro hΓ
      obtain ⟨hΓ₁, hfirst⟩ := ihfirst hΓ
      obtain ⟨hΓ₂, hmore⟩ := ihmore hΓ₁
      exact ⟨hΓ₂, hfirst.append hmore⟩
  | block _ _ ih =>
      intro hΓ
      obtain ⟨hΓ', hcode⟩ := ih (by simpa using hΓ)
      exact ⟨hΓ, hcode.append (straight_freeCode hΓ'.right.ids).sound⟩
  | leaving _ _ ih => exact fun hΓ => ⟨hΓ, (ih (by simpa using hΓ)).2⟩
  | otherwiseNone => exact fun hΓ => ⟨hΓ, straight_nil.sound⟩
  | otherwise _ ih => exact ih
  | elseIf htest _ _ hfits ihbody ihrest =>
      intro hΓ
      exact ⟨hΓ,
        (straight_exprCode htest hΓ).sound.branchLayout (ihbody hΓ).2 (ihrest hΓ).2 hfits⟩
  | startNothing => exact fun hΓ => ⟨hΓ, straight_nil.sound⟩
  | startDeclare _ ih => exact ih
  | startEvaluate hcode => exact fun hΓ => ⟨hΓ, (straight_exprCode hcode hΓ).sound⟩

/-! ## Functions -/

/-- Every return ends with the return instruction. -/
theorem ends_of_returnCode {u : Tables} {ctx : FunctionContext} {Γ : List Symbol} {e? : Option Expr}
    {code : Code} (h : ReturnCode u ctx Γ e? code) : ∃ result, code = result ++ [.plain .ret] := by
  cases h <;> exact ⟨_, rfl⟩

/-- Code that ends in a return to which no jump leads except to its start: sound code, code without
jumps, and the return. -/
def Returns (code : Code) : Prop :=
  ∃ before result, code = before ++ (result ++ [.plain .ret]) ∧ Sound before
    ∧ Straight (result ++ [.plain .ret])

theorem returns_returnCode {u : Tables} {ctx : FunctionContext} {Γ : List Symbol} {e? : Option Expr}
    {code : Code} (h : ReturnCode u ctx Γ e? code) (hΓ : Nonnegative u Γ)
    (htype : ctx.returnType.isKnown = true) : Returns code := by
  obtain ⟨result, rfl⟩ := ends_of_returnCode h
  exact ⟨[], result, rfl, straight_nil.sound, straight_returnCode h hΓ htype⟩

/-- What stands in front of code that returns may be any sound code. -/
theorem Returns.append {a b : Code} (ha : Sound a) (hb : Returns b) : Returns (a ++ b) := by
  obtain ⟨before, result, rfl, hbefore, hresult⟩ := hb
  exact ⟨a ++ before, result, by simp, ha.append hbefore, hresult⟩

/-- Statements the last of which is a return. -/
theorem returns_stmtCode {u : Tables} {ctx : FunctionContext} {outer inner inner' : List Symbol}
    {body : List Stmt} {code : Code} (h : StmtCode u ctx outer inner (.all body) inner' code)
    (hends : endsWithReturn body = true) (hΓ : Nonnegative u (outer ++ inner))
    (htype : ctx.returnType.isKnown = true) : Returns code := by
  induction body generalizing inner code with
  | nil => cases hends
  | cons s rest ih =>
      cases h with
      | cons hfirst hmore =>
          obtain ⟨hΓ', hsound⟩ := sound_stmtCode hfirst htype hΓ
          cases rest with
          | cons s' rest' =>
              exact .append hsound (ih hmore (by simpa [endsWithReturn] using hends) hΓ')
          | nil =>
              cases hmore
              cases hfirst with
              | return_ hreturn => simpa using returns_returnCode hreturn hΓ htype
              | effect hkind => cases ‹ExprKind› <;> simp_all [endsWithReturn]
              | nothing hkind => cases ‹ExprKind› <;> simp_all [endsWithReturn]
              | _ => cases hends

/-- Parameters have types that can be stored. -/
theorem paramSymbols_lawful {function : Text} {before : List Symbol} {params : List Param}
    {symbols : List Symbol} (h : ParamSymbols function before params symbols) :
    ∀ symbol ∈ symbols, symbol.type.Storable ∧ 0 ≤ symbol.id.toInt := by
  induction h with
  | nil => simp
  | cons hsymbol htype _ _ ih =>
      intro symbol hmem
      rcases List.mem_cons.mp hmem with rfl | hmem
      · rw [hsymbol]
        exact ⟨htype, Name.id_nonneg _⟩
      · exact ih symbol hmem

/-- Parameters are allocated and popped, one after the other. -/
theorem straight_prologue {symbols : List Symbol}
    (h : ∀ symbol ∈ symbols, symbol.type.Storable ∧ 0 ≤ symbol.id.toInt) :
    Straight (prologue symbols) := by
  intro i hi
  obtain ⟨symbol, hsymbol, hi⟩ := List.mem_flatMap.mp hi
  obtain ⟨htype, hid⟩ := h symbol (List.mem_reverse.mp hsymbol)
  rcases List.mem_cons.mp hi with rfl | hi
  · exact ⟨lawful_allocate htype hid, rfl⟩
  · exact straight_variable rfl hid i hi

/-- A function either ends in a return of its own or has one put behind its body. -/
theorem returns_functionCode {u : Tables} {f : FuncDecl} {body : List Stmt} {code : Code}
    (h : FunctionCode u f body code) (hu : Nonnegative u [])
    (htype : f.returnType.isKnown = true) : Returns code := by
  have hparams {params : List Symbol} (hsymbols : ParamSymbols f.name [] f.params params) :
      Nonnegative u ([] ++ params) ∧ Sound (prologue params) :=
    ⟨⟨fun symbol hmem => (paramSymbols_lawful hsymbols symbol hmem).2, hu.global⟩,
      (straight_prologue (paramSymbols_lawful hsymbols)).sound⟩
  cases h with
  | falling _ hsymbols hcode hexit =>
      obtain ⟨hΓ, hprologue⟩ := hparams hsymbols
      obtain ⟨hΓ', hsound⟩ := sound_stmtCode hcode htype hΓ
      exact .append (hprologue.append hsound) (returns_returnCode hexit hΓ' htype)
  | returning hends hsymbols hcode =>
      obtain ⟨hΓ, hprologue⟩ := hparams hsymbols
      exact .append hprologue (returns_stmtCode hcode hends hΓ htype)

theorem Returns.lawful {code : Code} (h : Returns code) : ∀ i ∈ code, Lawful i := by
  obtain ⟨before, result, rfl, hbefore, hresult⟩ := h
  exact fun i hi => (List.mem_append.mp hi).elim (hbefore.lawful i) fun hi => (hresult i hi).1

theorem Returns.encodable {code : Code} (h : Returns code)
    (hlong : (Instr.encodeAll code).length < 2 ^ 63) : ∀ i ∈ code, i.Encodable := fun i hi =>
  (h.lawful i hi).encodable (Nat.lt_of_le_of_lt (Instr.data_length_le hi) hlong)

/-- Bytes of code that returns are well formed. -/
theorem Returns.wellFormedCode {code : Code} (h : Returns code)
    (hlong : (Instr.encodeAll code).length < 2 ^ 63) :
    WellFormedCode (Instr.encodeAll code) (Instr.listing 0 code) := by
  have hlawful := h.lawful
  have hencodable := h.encodable hlong
  obtain ⟨before, result, rfl, hbefore, hresult⟩ := h
  refine ⟨Instr.decodes_of_placed hlong (.whole hencodable) ?_, ?_, ?_, ?_⟩
  · rw [Instr.length_encodeAll hencodable]
    omega
  · rw [← List.append_assoc, Instr.listing_append]
    simp [Instr.listing]
  · intro entry hentry
    obtain ⟨first, rest, hcode, -⟩ := Instr.mem_listing hentry
    exact (hlawful entry.2 (by rw [hcode]; simp)).toRegular
  · intro entry hentry hrel
    have hjumps : JumpsTo (Boundary before) 0 (before ++ (result ++ [.plain .ret])) :=
      jumpsTo_append.mpr ⟨hbefore.closed, jumpsTo_of_plain fun i hi => (hresult i hi).2⟩
    obtain ⟨first, rest, rfl, htarget⟩ := hjumps.target hentry hrel
    -- the return stands behind every place that a jump leads to
    obtain ⟨i, more, hmore⟩ : ∃ i more, rest ++ (result ++ [.plain .ret]) = i :: more :=
      List.exists_cons_of_ne_nil (by simp)
    refine ⟨(Instr.sizeAll first, i), ?_, htarget⟩
    rw [List.append_assoc, hmore, Instr.listing_append]
    simp [Instr.listing]

/-- Ids of declared names come from the hash, which has no sign. -/
theorem Declared.nonnegative {u : Tables} {program : List Decl} {s : GenState}
    (h : Declared program s) (hproper : ∀ d ∈ program, d.Proper) (hglobals : u.globals = s.globals) :
    Nonnegative u [] := by
  refine ⟨by simp, fun name symbol hget => ?_⟩
  obtain ⟨d, hd, -, rfl⟩ := h.variableDeclared name symbol (hglobals ▸ hget)
  have hid : d.id = Name.id d.name := by
    cases hd with
    | field hd => exact (hproper _ hd).2
    | var hd => exact (hproper _ hd).2
  rw [globalSymbol, hid]
  exact Name.id_nonneg d.name

theorem Generated.nonnegative {u : Tables} {program : List Decl} {found : List Section}
    (h : Generated u program found) : Nonnegative u [] :=
  h.declared.nonnegative h.proper rfl

/-- A function section holds the code of a function of the unit. -/
theorem SectionsOf.function {u : Tables} {program : List Decl} {found : List Section}
    (h : SectionsOf u program found) {s : Section} (hs : s ∈ found) (hkind : s.kind = .function) :
    ∃ f body code, .function f ∈ program ∧ f.body? = some body ∧ FunctionCode u f body code
      ∧ s = ⟨.function, f.id, (storedFunction f code).toPayload⟩ := by
  induction h with
  | nil => cases hs
  | cons hfirst _ ih =>
      rcases List.mem_append.mp hs with hs | hs
      · cases hfirst with
        | field =>
            obtain rfl := List.mem_singleton.mp hs
            cases hkind
        | var =>
            obtain rfl := List.mem_singleton.mp hs
            cases hkind
        | announced => cases hs
        | function hbody hcode =>
            exact ⟨_, _, _, by simp, hbody, hcode, List.mem_singleton.mp hs⟩
      · obtain ⟨f, body, code, hmem, hrest⟩ := ih hs
        exact ⟨f, body, code, List.mem_cons_of_mem _ hmem, hrest⟩

end Gen

/-- Every function of a compiled script holds well-formed code: it reads as a listing from its start
to its end, returns last, and jumps only to instructions of its own. Addresses have 63 bits, so longer
code cannot be read at all. -/
theorem compile_wellFormedCode {store : FileStore} {options : CompileOptions}
    {sources : List Macros.Source} {history : List Text} {script : Script}
    (h : (compile store options sources history).script? = some script) {s : Section}
    (hs : s ∈ script.sections) (hkind : s.kind = .function) (hlong : s.data.length < 2 ^ 63) :
    ∃ f listing, FunctionBody.ofPayload s.data = .ok f ∧ WellFormedCode f.code listing := by
  obtain ⟨u, -, hunit⟩ := compile_generated h
  obtain ⟨f, body, code, hmem, -, hcode, rfl⟩ := hunit.sections.function hs hkind
  have hreturns := Gen.returns_functionCode hcode hunit.nonnegative (hunit.proper _ hmem).returnType
  refine ⟨Gen.storedFunction f code, _, rfl, hreturns.wellFormedCode ?_⟩
  simp only [FunctionBody.toPayload, Gen.storedFunction, List.length_cons] at hlong
  omega

/-- A function with a loop. -/
def countingSource : Macros.Source :=
  ⟨"count", "define f(int n) = int { while (n < 3) { n++; } return n; }"⟩

theorem countingSource_wellFormedCode :
    ∃ script, (compile (.memory { cwd := "/" }) {} [countingSource]).script? = some script
      ∧ ∃ s ∈ script.sections, s.kind = .function ∧ ∃ f listing,
        FunctionBody.ofPayload s.data = .ok f ∧ WellFormedCode f.code listing := by
  have hmap : (compile (.memory { cwd := "/" }) {} [countingSource]).script?.map
      (fun script => script.sections.map fun s => (s.kind, s.data.length))
        = some [(.function, 141)] := by
    decide +kernel
  obtain ⟨script, hscript, hsections⟩ := Option.map_eq_some_iff.mp hmap
  obtain ⟨s, rest, hs⟩ : ∃ s rest, script.sections = s :: rest :=
    List.exists_cons_of_ne_nil (by rintro hnil; simp [hnil] at hsections)
  obtain ⟨⟨hkind, hlength⟩, -⟩ : (s.kind = .function ∧ s.data.length = 141) ∧ rest = [] := by
    simpa [hs] using hsections
  have hmem : s ∈ script.sections := by simp [hs]
  exact ⟨script, hscript, s, hmem, hkind,
    compile_wellFormedCode hscript hmem hkind (by omega)⟩

end TickScript
