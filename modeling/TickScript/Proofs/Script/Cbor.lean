import TickScript.Script.Cbor
import TickScript.Proofs.Word

/-!
# Reading what was written

`Spells depth bytes item` says that the reader finds the item at the front of any text that opens
with the bytes, and leaves what follows. The reader's fuel and its bound on nesting are part of the
relation: fuel in proportion to the bytes is enough, and `depth` is how far the item nests. Each
writer of the format spells the item it is for, lists and maps whenever their members do.

An item is read by the number that its head says, so a reader can only be proved right for all
suffixes at once. What is not proved is that the reader accepts nothing else: other encodings of the
same item exist, with longer heads, and are read as well.
-/

namespace TickScript.Cbor

/-! ## Heads -/

/-- The last byte counts once. -/
theorem bigEndian_append (t : Text) (b : UInt8) : bigEndian (t ++ [b]) = bigEndian t * 256 + b.toNat := by
  simp [bigEndian]

/-- The two byte orders read the same number from reversed bytes. -/
theorem bigEndian_reverse (t : Text) : bigEndian t.reverse = Text.ofLittleEndian t := by
  induction t with
  | nil => rfl
  | cons b t ih =>
    rw [List.reverse_cons, bigEndian_append, ih, Text.ofLittleEndian]
    omega

/-- The major type and the short argument share the first byte. -/
theorem mark_toNat {major info : Nat} (hmajor : major < 8) (hinfo : info < 32) :
    (major * 32 + info).toUInt8.toNat = major * 32 + info := by
  simp only [Nat.toUInt8, UInt8.toNat_ofNat']
  omega

/-- A head whose argument stands in the mark itself. -/
theorem head?_short {major info : Nat} (hmajor : major < 8) (hinfo : info < 24) (rest : Text) :
    head? ((major * 32 + info).toUInt8 :: rest) = some (⟨major, info, info⟩, rest) := by
  have hmark := mark_toNat hmajor (show info < 32 by omega)
  have hdiv : (major * 32 + info) / 32 = major := by omega
  have hmod : (major * 32 + info) % 32 = info := by omega
  simp only [head?, hmark, hdiv, hmod]
  rw [if_pos hinfo]

/-- A head whose argument follows the mark in `1 <<< more` bytes. -/
theorem head?_wide {major argument : Nat} (more : Nat) (hmajor : major < 7) (hmore : more < 4)
    (harg : argument < 256 ^ (1 <<< more)) (rest : Text) :
    head? ((major * 32 + (24 + more)).toUInt8
        :: ((Text.littleEndian (1 <<< more) argument).reverse ++ rest))
      = some (⟨major, 24 + more, argument⟩, rest) := by
  have hmark := mark_toNat (show major < 8 by omega) (show 24 + more < 32 by omega)
  have hdiv : (major * 32 + (24 + more)) / 32 = major := by omega
  have hmod : (major * 32 + (24 + more)) % 32 = 24 + more := by omega
  have hlen : (Text.littleEndian (1 <<< more) argument).reverse.length = 1 <<< more := by simp
  have htake : ((Text.littleEndian (1 <<< more) argument).reverse ++ rest).take (1 <<< more)
      = (Text.littleEndian (1 <<< more) argument).reverse := List.take_left' hlen
  have hdrop : ((Text.littleEndian (1 <<< more) argument).reverse ++ rest).drop (1 <<< more)
      = rest := List.drop_left' hlen
  have hvalue : bigEndian (Text.littleEndian (1 <<< more) argument).reverse = argument := by
    rw [bigEndian_reverse, Text.ofLittleEndian_littleEndian, Nat.mod_eq_of_lt harg]
  have hseven : (major == 7) = false := by simp; omega
  simp only [head?, hmark, hdiv, hmod, Nat.add_sub_cancel_left, htake, hdrop, hvalue, hlen, hseven]
  rw [if_neg (by omega), if_pos (by omega)]
  simp

/-- The shortest head is read back, and it is not the mark of an open length. -/
theorem head?_encodeHead {major argument : Nat} (hmajor : major < 7) (harg : argument < 2 ^ 64)
    (rest : Text) :
    ∃ info, info < 28 ∧ head? (encodeHead major argument ++ rest) = some (⟨major, info, argument⟩, rest) := by
  unfold encodeHead
  split
  next h => exact ⟨argument, by omega, head?_short (by omega) h rest⟩
  next =>
    split
    next h => exact ⟨24, by omega, head?_wide 0 hmajor (by omega) (by simpa using h) rest⟩
    next =>
      split
      next h => exact ⟨25, by omega, head?_wide 1 hmajor (by omega) (by simpa using h) rest⟩
      next =>
        split
        next h => exact ⟨26, by omega, head?_wide 2 hmajor (by omega) (by simpa using h) rest⟩
        next => exact ⟨27, by omega, head?_wide 3 hmajor (by omega) (by simpa using harg) rest⟩

theorem encodeHead_length_pos (major argument : Nat) : 0 < (encodeHead major argument).length := by
  unfold encodeHead
  repeat' split
  all_goals simp

/-! ## Spelling -/

/-- The reader takes the item off the front of any text that opens with the bytes. -/
def Spells (depth : Nat) (bytes : Text) (item : Item) : Prop :=
  ∀ fuel outer rest, 2 * bytes.length ≤ fuel → outer + depth ≤ maxDepth →
    item? fuel outer (bytes ++ rest) = some (item, rest)

/-- The bytes of the items in a row, each of which is spelled. -/
inductive SpellsAll (depth : Nat) : List Text → List Item → Prop where
  | nil : SpellsAll depth [] []
  | cons {bytes : Text} {item : Item} {parts : List Text} {items : List Item} :
      bytes ≠ [] → Spells depth bytes item → SpellsAll depth parts items →
      SpellsAll depth (bytes :: parts) (item :: items)

/-- What spells an item is decoded to it, if it is not nested too deeply. -/
theorem Spells.decode {depth : Nat} {bytes : Text} {item : Item} (h : Spells depth bytes item)
    (hdepth : depth ≤ maxDepth) : Item.decode bytes = some item := by
  have hread := h (2 * bytes.length + 2) 0 [] (by omega) (by omega)
  rw [List.append_nil] at hread
  simp [Item.decode, hread]

/-- Deeper nesting may be allowed. -/
theorem Spells.deeper {depth more : Nat} {bytes : Text} {item : Item} (h : Spells depth bytes item)
    (hle : depth ≤ more) : Spells more bytes item :=
  fun fuel outer rest hfuel hdepth => h fuel outer rest hfuel (by omega)

/-- There are as many parts as items. -/
theorem SpellsAll.length_eq {depth : Nat} {parts : List Text} {items : List Item}
    (h : SpellsAll depth parts items) : items.length = parts.length := by
  induction h with
  | nil => rfl
  | cons _ _ _ ih => simp [ih]

/-- A row of members, each spelled by its own writer. -/
theorem spellsAll_map {α : Type} {depth : Nat} {write : α → Text} {item : α → Item} {members : List α}
    (h : ∀ a ∈ members, write a ≠ [] ∧ Spells depth (write a) (item a)) :
    SpellsAll depth (members.map write) (members.map item) := by
  induction members with
  | nil => exact .nil
  | cons a members ih =>
    obtain ⟨hne, hspells⟩ := h a (by simp)
    exact .cons hne hspells (ih fun b hb => h b (by simp [hb]))

/-- Members in a row are read one after the other. -/
theorem SpellsAll.items? {depth : Nat} {parts : List Text} {items : List Item}
    (h : SpellsAll depth parts items) (fuel outer : Nat) (rest : Text)
    (hfuel : 2 * parts.flatten.length + 1 ≤ fuel) (hdepth : outer + depth ≤ maxDepth) :
    items? fuel outer parts.length (parts.flatten ++ rest) = some (items, rest) := by
  induction h generalizing fuel with
  | nil =>
    obtain ⟨fuel, rfl⟩ : ∃ n, fuel = n + 1 := ⟨fuel - 1, by omega⟩
    simp [Cbor.items?]
  | @cons bytes item parts items hne hspells _ ih =>
    obtain ⟨fuel, rfl⟩ : ∃ n, fuel = n + 1 := ⟨fuel - 1, by omega⟩
    have hpos : 0 < bytes.length := List.length_pos_iff.2 hne
    simp only [List.flatten_cons, List.length_append] at hfuel
    have hfirst := hspells fuel outer (parts.flatten ++ rest) (by omega) hdepth
    have hmore := ih fuel (by omega)
    simp only [List.flatten_cons, List.length_cons, List.append_assoc, Cbor.items?, hfirst, hmore,
      Option.bind_eq_bind, Option.bind_some]

/-! ## Writers -/

theorem spells_unsigned {n : Nat} (h : n < 2 ^ 64) : Spells 0 (encodeHead 0 n) (.unsigned n) := by
  intro fuel outer rest hfuel _
  have hpos := encodeHead_length_pos 0 n
  obtain ⟨fuel, rfl⟩ : ∃ m, fuel = m + 1 := ⟨fuel - 1, by omega⟩
  obtain ⟨info, _, hhead⟩ := head?_encodeHead (show 0 < 7 by omega) h rest
  simp [item?, hhead]

theorem spells_negative {n : Nat} (h : n < 2 ^ 64) : Spells 0 (encodeHead 1 n) (.negative n) := by
  intro fuel outer rest hfuel _
  have hpos := encodeHead_length_pos 1 n
  obtain ⟨fuel, rfl⟩ : ∃ m, fuel = m + 1 := ⟨fuel - 1, by omega⟩
  obtain ⟨info, _, hhead⟩ := head?_encodeHead (show 1 < 7 by omega) h rest
  simp [item?, hhead]

theorem spells_null : Spells 0 [0xF6] .null := by
  intro fuel outer rest hfuel _
  obtain ⟨fuel, rfl⟩ : ∃ m, fuel = m + 1 := ⟨fuel - 1, by simp at hfuel; omega⟩
  simp [item?, head?]

theorem spells_text {t : Text} (h : t.length < 2 ^ 63) : Spells 0 (encodeText t) (.text [t]) := by
  intro fuel outer rest hfuel _
  have hpos := encodeHead_length_pos 3 t.length
  simp only [encodeText, List.length_append] at hfuel
  obtain ⟨fuel, rfl⟩ : ∃ m, fuel = m + 1 := ⟨fuel - 1, by omega⟩
  obtain ⟨info, hinfo, hhead⟩ :=
    head?_encodeHead (show 3 < 7 by omega) (show t.length < 2 ^ 64 by omega) (t ++ rest)
  have hopen : info ≠ 31 := by omega
  have hshort : ¬ 0x8000000000000000 ≤ t.length := by omega
  simp [encodeText, item?, hhead, hopen, hshort, window?]

/-- A list of members that are spelled. -/
theorem spells_array {depth : Nat} {parts : List Text} {items : List Item}
    (h : SpellsAll depth parts items) (hcount : parts.length ≤ maxEntries) :
    Spells (depth + 1) (encodeHead 4 parts.length ++ parts.flatten) (.array items) := by
  intro fuel outer rest hfuel hdepth
  have hpos := encodeHead_length_pos 4 parts.length
  simp only [List.length_append] at hfuel
  obtain ⟨fuel, rfl⟩ : ∃ m, fuel = m + 1 := ⟨fuel - 1, by omega⟩
  have hcount' : parts.length ≤ 131072 := hcount
  obtain ⟨info, hinfo, hhead⟩ :=
    head?_encodeHead (show 4 < 7 by omega) (show parts.length < 2 ^ 64 by omega)
      (parts.flatten ++ rest)
  have hopen : info ≠ 31 := by omega
  have hdeep : ¬ maxDepth < outer + 1 := by omega
  have hmany : ¬ maxEntries < parts.length := by omega
  have hitems := h.items? fuel (outer + 1) rest (by omega) (by omega)
  simp [item?, hhead, hopen, hdeep, hmany, hitems, h.length_eq]

/-- A map of keys and values that are spelled in turn. -/
theorem spells_map {depth : Nat} {parts : List Text} {items : List Item}
    {entries : List (Item × Item)} (h : SpellsAll depth parts items)
    (hpairs : pairs? items = some entries) (hparts : parts.length = 2 * entries.length)
    (hcount : entries.length ≤ maxEntries) :
    Spells (depth + 1) (encodeHead 5 entries.length ++ parts.flatten) (.map entries) := by
  intro fuel outer rest hfuel hdepth
  have hpos := encodeHead_length_pos 5 entries.length
  simp only [List.length_append] at hfuel
  obtain ⟨fuel, rfl⟩ : ∃ m, fuel = m + 1 := ⟨fuel - 1, by omega⟩
  have hcount' : entries.length ≤ 131072 := hcount
  obtain ⟨info, hinfo, hhead⟩ :=
    head?_encodeHead (show 5 < 7 by omega) (show entries.length < 2 ^ 64 by omega)
      (parts.flatten ++ rest)
  have hopen : info ≠ 31 := by omega
  have hdeep : ¬ maxDepth < outer + 1 := by omega
  have hmany : ¬ maxEntries < entries.length := by omega
  have hitems := h.items? fuel (outer + 1) rest (by omega) (by omega)
  rw [hparts] at hitems
  simp [item?, hhead, hopen, hdeep, hmany, hitems, hpairs]

end TickScript.Cbor
