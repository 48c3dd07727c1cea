import TickScript.Proofs.Listing.Assembler

/-!
# Listings are faithful

A listing of functions can be made whatever their code is, as long as it is code, and assembling the
listing gives the functions back: id, parameter count, return type and every byte of the code. The
names only decide how ids are written. A jump reads back whether its target has a label or not, since
a target without one is written as the number that the instruction holds.

The general form is `assemble_of_lists`, about sections of any kind with what each of them reads as;
it is used for functions here, which come back as they are, and in `Proofs.Listing.Compiled` for
units whose variables may lose something. The example has all the odd jumps that code can have
without ceasing to be code.
-/

namespace TickScript

/-- A function that a listing can write: its code is instructions from the start to the end, and what
is written by name has a name. -/
structure Section.Decodes (s : Section) (f : FunctionBody) (placed : List (Nat × Instr)) : Prop where
  kind : s.kind = .function
  /-- Negative ids are not those of declarations. -/
  id : 0 ≤ s.id.toInt
  body : FunctionBody.ofPayload s.data = .ok f
  returns : f.returnType.isKnown = true
  walk : Instr.Walk 0 f.code placed f.code.length []
  named : ∀ entry ∈ placed, entry.2.Named

/-- A payload that was read is the one that is written for what was read. -/
theorem FunctionBody.toPayload_of_ofPayload {data : Text} {f : FunctionBody}
    (h : FunctionBody.ofPayload data = .ok f) : f.toPayload = data := by
  unfold FunctionBody.ofPayload at h
  split at h
  · obtain rfl := Except.ok.inj h
    rfl
  · cases h

namespace Instr.Walk

variable {offset stop : Nat} {bytes rest : Text} {placed : List (Nat × Instr)}

/-- What a walk comes by was decoded, so it is in the range of its operands. -/
theorem encodable (h : Walk offset bytes placed stop rest) : ∀ entry ∈ placed, entry.2.Encodable := by
  induction h with
  | here => simp
  | step hhead _ ih => exact List.forall_mem_cons.2 ⟨(decodeHead_inv hhead).1, ih⟩

/-- The bytes of a walk are those of its instructions. -/
theorem encodeAll (h : Walk offset bytes placed stop rest) :
    bytes = Instr.encodeAll (placed.map (·.2)) ++ rest := by
  induction h with
  | here => rfl
  | step hhead _ ih =>
      rw [(decodeHead_inv hhead).2, ih]
      simp [Instr.encodeAll]

/-- What a walk to the end finds is what the printer finds. -/
theorem placedInstrs_eq (h : Walk offset bytes placed stop []) :
    Listing.placedInstrs bytes.length offset bytes = .ok placed := by
  obtain ⟨left, -, hplaced⟩ := h.placedInstrs (Nat.le_refl bytes.length)
  rw [hplaced]
  cases left <;> simp [Listing.placedInstrs, Except.map]

/-- Instructions that are written one behind the other are found again. -/
theorem of_encodable {code : List Instr} (h : ∀ i ∈ code, i.Encodable) (offset : Nat)
    (haddr : offset + sizeAll code < 2 ^ 63) :
    ∃ placed, placed.map (·.2) = code
      ∧ Walk offset (Instr.encodeAll code) placed (offset + sizeAll code) [] := by
  induction code generalizing offset with
  | nil => exact ⟨[], rfl, .here⟩
  | cons i code ih =>
      rw [List.forall_mem_cons] at h
      rw [sizeAll] at haddr ⊢
      obtain ⟨placed, hplaced, hwalk⟩ := ih h.2 (offset + i.size) (by omega)
      rw [Nat.add_assoc] at hwalk
      refine ⟨(offset, i) :: placed, by rw [List.map_cons, hplaced], .step ?_ hwalk⟩
      exact h.1.decodeHead offset (Instr.encodeAll code) (by omega)

end Instr.Walk

/-- Code that is written instruction by instruction is code that a listing can write. -/
theorem FunctionBody.decodes {code : List Instr} (h : ∀ i ∈ code, i.Encodable ∧ i.Named)
    (hsize : Instr.sizeAll code < 2 ^ 63) {id : Id} (hid : 0 ≤ id.toInt) (params : UInt8)
    {returns : VarType} (hreturns : returns.isKnown = true) : ∃ f placed,
      Section.Decodes ⟨.function, id, toPayload ⟨params, returns, Instr.encodeAll code⟩⟩ f placed := by
  have hencodable : ∀ i ∈ code, i.Encodable := fun i hi => (h i hi).1
  obtain ⟨placed, hplaced, hwalk⟩ := Instr.Walk.of_encodable hencodable 0 (by omega)
  rw [Nat.zero_add, ← Instr.length_encodeAll hencodable] at hwalk
  refine ⟨⟨params, returns, Instr.encodeAll code⟩, placed, rfl, hid, rfl, hreturns, hwalk, ?_⟩
  intro entry hentry
  have hmem : entry.2 ∈ code := hplaced ▸ List.mem_map_of_mem hentry
  exact (h entry.2 hmem).2

namespace Listing

open Text

variable {names : Names} {s : Section} {f : FunctionBody} {placed : List (Nat × Instr)}

/-- A section that decodes is printed so that the lexer cuts it. -/
theorem lexical_of_decodes (h : s.Decodes f placed) : (writtenFunction names s.id f placed).Lexical := by
  refine lexical_writtenFunction names s.id h.returns ?_
  intro entry hentry
  exact ⟨h.walk.encodable entry hentry, h.named entry hentry⟩

/-- The declaration of a function stands for its section. -/
theorem reads_itemSection (h : s.Decodes f placed) {item : Item}
    (hitem : item.Is (.function (writtenFunction names s.id f placed))) :
    Reads (itemSection item) s := by
  cases item with
  | global => cases hitem
  | function place name params returns ks =>
      obtain ⟨rfl, rfl, rfl, hrows⟩ := hitem
      have hcount : readUnsigned 8 (ofNat f.paramCount.toNat) = .ok f.paramCount.toNat :=
        readUnsigned_ofNat f.paramCount.toNat_lt
      have hvalid : f.returnType ≠ .invalid := by
        intro hinvalid
        have hreturns := h.returns
        rw [hinvalid] at hreturns
        cases hreturns
      have hfresh : ∀ address, 0 ≤ address → Table.get? ([] : Labels) (labelOf (address : Nat)) = none := by
        intro address _
        rfl
      obtain ⟨labels, hplace, hfound, -⟩ := placeLabels_code h.walk hrows hfresh
      have hlabels : Labelled (hasLabel placed f.code.length) labels := by
        refine ⟨fun address haddress => (mem_starts_of_hasLabel haddress).1, ?_⟩
        intro address haddress
        exact hfound address (mem_starts_of_hasLabel haddress).2 haddress
      have hcode := reads_code hlabels h.walk h.named hrows
      have hid := reads_sectionId names h.id
      have hbytes : f.code = Instr.encodeAll (placed.map (·.2)) := by
        have hwalk := h.walk.encodeAll
        rwa [List.append_nil] at hwalk
      have hsection : s = ⟨.function, s.id, FunctionBody.toPayload ⟨f.paramCount.toNat.toUInt8,
          f.returnType, Instr.encodeAll (placed.map (·.2))⟩⟩ := by
        show s = ⟨.function, s.id, FunctionBody.toPayload ⟨UInt8.ofNat f.paramCount.toNat, _, _⟩⟩
        rw [← hbytes, UInt8.ofNat_toNat, FunctionBody.toPayload_of_ofPayload h.body, ← h.kind]
      simp only [itemSection, writtenFunction, hcount, VarType.ofName_name h.returns,
        if_neg hvalid]
      refine (Reads.lift hplace).bind (hcode.bind (hid.bind ?_))
      rw [← hsection]
      exact .pure s

/-- A section is written as a declaration, and what the declaration reads as is the section `back`. -/
structure Lists (names : Names) (s : Section) (w : WrittenItem) (back : Section) : Prop where
  /-- The printer writes the section as this text. -/
  shows : showSection names s = .ok w.text
  /-- The text is made of lexemes. -/
  lexical : w.Lexical
  /-- The assembler reads it back as the section. -/
  reads : ∀ item : Item, item.Is w → Reads (itemSection item) back

/-- A function is read back as it is. -/
theorem lists_of_decodes (names : Names) (h : s.Decodes f placed) :
    Lists names s (.function (writtenFunction names s.id f placed)) s where
  shows := showSection_eq names h.kind h.body h.walk.placedInstrs_eq h.walk.encodable
  lexical := lexical_of_decodes h
  reads _ hitem := reads_itemSection h hitem

/-- Sections are written one by one and read one by one. -/
theorem exists_lists {names : Names} {back : Section → Section} {sections : List Section}
    (h : ∀ s ∈ sections, ∃ w, Lists names s w (back s)) :
    ∃ ws : List WrittenItem, sections.mapM (showSection names) = .ok (ws.map WrittenItem.text)
      ∧ (∀ w ∈ ws, w.Lexical)
      ∧ ∀ its, List.Forall₂ Item.Is ws its → Reads (itemSections its) (sections.map back) := by
  induction sections with
  | nil =>
      refine ⟨[], rfl, by simp, ?_⟩
      intro its hits
      cases hits
      exact .pure []
  | cons s sections ih =>
      rw [List.forall_mem_cons] at h
      obtain ⟨w, hw⟩ := h.1
      obtain ⟨ws, hshows, hlexical, hreads⟩ := ih h.2
      refine ⟨w :: ws, ?_, List.forall_mem_cons.2 ⟨hw.lexical, hlexical⟩, ?_⟩
      · rw [List.mapM_cons, hw.shows, hshows]
        rfl
      · intro its hits
        obtain ⟨item, more, hitem, hmore, rfl⟩ := List.forall₂_cons_left_iff.1 hits
        exact (hw.reads item hitem).bind ((hreads more hmore).bind (.pure _))

/-- A script whose sections can be listed has a listing, and assembling it gives what the sections are
read back as. -/
theorem assemble_of_lists (names : Names) (back : Section → Section) {script : Script}
    (h : ∀ s ∈ script.sections, ∃ w, Lists names s w (back s)) :
    ∃ listing used, print names script = .ok listing
      ∧ assemble listing = .ok ({ sections := script.sections.map back }, used) := by
  obtain ⟨ws, hshows, hlexical, hreads⟩ := exists_lists h
  have hprint : print names script = .ok (join [0x0A] (ws.map WrittenItem.text)) := by
    rw [print, hshows]
    rfl
  obtain ⟨its, hparse, hits⟩ : ∃ its, parse (join [0x0A] (ws.map WrittenItem.text)) = .ok its
      ∧ List.Forall₂ Item.Is ws its := by
    by_cases hne : ws = []
    · -- no declarations are written as no text
      exact ⟨[], by rw [hne]; rfl, by rw [hne]; exact .nil⟩
    · exact parse_items hne hlexical
  obtain ⟨used, hsections⟩ := hreads its hits []
  refine ⟨_, used, hprint, ?_⟩
  simp only [assemble, hparse, hsections, bind, Except.bind]
  rfl

/-- Functions have a listing, and it is a listing of the same functions, whatever their jumps are and
whatever the names say. -/
theorem assemble_print (names : Names) {script : Script}
    (h : ∀ s ∈ script.sections, ∃ f placed, s.Decodes f placed) :
    ∃ listing used, print names script = .ok listing
      ∧ assemble listing = .ok ({ sections := script.sections }, used) := by
  have hlists : ∀ s ∈ script.sections, ∃ w, Lists names s w (id s) := by
    intro s hs
    obtain ⟨f, placed, hdecodes⟩ := h s hs
    exact ⟨_, lists_of_decodes names hdecodes⟩
  obtain ⟨listing, used, hprint, hassemble⟩ := assemble_of_lists names id hlists
  rw [List.map_id] at hassemble
  exact ⟨listing, used, hprint, hassemble⟩

/-- Jumps ahead, back, into an instruction, out of the code and to its end, and a call whose id has
the name of a word with a meaning of its own. -/
def tangle : List Instr :=
  [.withWord .jumpBy 3, .withWord .jumpIfBy (-6), .withWord .jumpBy (-2), .withWord .jump (-1),
    .withWord .jumpIf 37, .withWord .call (Name.id "null"), .plain .ret]

/-- A function made of the tangle. -/
def tangled : Section := ⟨.function, 7, FunctionBody.toPayload ⟨2, .int, Instr.encodeAll tangle⟩⟩

theorem tangled_decodes : ∀ s ∈ [tangled], ∃ f placed, s.Decodes f placed := by
  have hword {op : Opcode} {operand : Operand} {word : Int64} (hop : op.operands = [operand])
      (hholds : operand.Holds word) (hnamed : (Instr.withWord op word).Named) :
      (Instr.withWord op word).Encodable ∧ (Instr.withWord op word).Named :=
    ⟨Instr.encodable_withWord hop hholds, hnamed⟩
  have htangle : ∀ i ∈ tangle, i.Encodable ∧ i.Named := by
    simp only [tangle, List.forall_mem_cons]
    have hshort {word : Int64} (h : -0x8000 ≤ word.toInt ∧ word.toInt < 0x8000) :
        Operand.distance.Holds word := h
    exact ⟨hword rfl (hshort (by decide)) (by decide), hword rfl (hshort (by decide)) (by decide),
      hword rfl (hshort (by decide)) (by decide), hword rfl trivial (by decide),
      hword rfl trivial (by decide), hword rfl trivial (by decide),
      ⟨Instr.encodable_plain rfl, by decide⟩, by simp⟩
  intro s hs
  obtain rfl := List.mem_singleton.1 hs
  exact FunctionBody.decodes htangle (by decide) (by decide) 2 (by decide)

theorem assemble_print_tangled :
    (∀ s ∈ [tangled], ∃ f placed, s.Decodes f placed) ∧ ∃ listing used,
      print [(7, "seven"), (Name.id "null", "null")] { sections := [tangled] } = .ok listing
        ∧ assemble listing = .ok ({ sections := [tangled] }, used) :=
  ⟨tangled_decodes, assemble_print _ tangled_decodes⟩

end Listing

end TickScript
