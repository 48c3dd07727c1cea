import TickScript.Script.Exports
import TickScript.Proofs.Script.Cbor
import TickScript.Proofs.Text.Runes

/-!
# The stored export table is read back

A table is written as one item. `ExportTable.item` is that item as a tree: the writer spells it and
the reader takes it to the table it came from. The keys come back in whatever order they stand, so
nothing here depends on the order of the writer beyond the tree itself. A list that is absent is
written as null, an empty one as an array without members, and the two stay apart.

The order of the keys matters to nobody: entries are looked up by their keys (`fieldEntries_key`),
so a table comes back from an item with the same entries in any order. That texts are UTF-8 and
lists not too long (`Storable`) is what the format itself asks for. `Format.Faithful` is the law in
the form in which `Proofs.Script.Binary` uses it, for a stored form that is a parameter there.
-/

namespace TickScript

open TickScript.Cbor

namespace ExportTable

/-- What the stored form asks of a table: its texts are UTF-8 and its lists are not too long. -/
structure Storable (t : ExportTable) : Prop where
  /-- Names are texts that the format can hold. -/
  names : ∀ e ∈ t.exports, e.name.isUtf8 = true
  /-- Dependencies are such texts too. -/
  dependencies : ∀ d ∈ t.dependencies, d.isUtf8 = true
  /-- There are no more exports than a list may have. -/
  fewExports : t.exports.length ≤ maxEntries
  /-- There are no more dependencies than a list may have. -/
  fewDependencies : t.dependencies.length ≤ maxEntries

/-! ## The table as an item -/

/-- A key of a map. -/
def key (name : Text) : Item := .text [name]

/-- An integer as an item. -/
def intItem (n : Int) : Item := if n < 0 then .negative (-1 - n).toNat else .unsigned n.toNat

/-- A list as an item, null when it is absent. -/
def listItem : Option (List Item) → Item
  | some items => .array items
  | none => .null

/-- An export as an item. -/
def exportItem (e : Export) : Item :=
  .map [(key "id", intItem e.id.toInt), (key "kind", intItem e.kind.tag.toNat),
    (key "name", .text [e.name])]

/-- A table as an item. -/
def item (t : ExportTable) : Item :=
  .map [(key "exports", listItem (t.exports?.map (·.map exportItem))),
    (key "dependencies", listItem (t.dependencies?.map (·.map fun d => .text [d])))]

/-! ## The writer spells the item -/

theorem encodeText_ne_nil (t : Text) : encodeText t ≠ [] := by
  have hpos := encodeHead_length_pos 3 t.length
  exact List.ne_nil_of_length_pos (by simp only [encodeText, List.length_append]; omega)

/-- An integer is an unsigned or a negative item. -/
theorem spells_int {n : Int} (hlow : -(2 : Int) ^ 63 ≤ n) (hhigh : n < 2 ^ 63) :
    encodeInt n ≠ [] ∧ Spells 0 (encodeInt n) (intItem n) := by
  unfold encodeInt intItem
  split
  next => exact ⟨List.ne_nil_of_length_pos (encodeHead_length_pos _ _), spells_negative (by omega)⟩
  next => exact ⟨List.ne_nil_of_length_pos (encodeHead_length_pos _ _), spells_unsigned (by omega)⟩

/-- An id is one. -/
theorem spells_id (id : Id) : encodeInt id.toInt ≠ [] ∧ Spells 0 (encodeInt id.toInt) (intItem id.toInt) :=
  spells_int (Int64.le_toInt id) (Int64.toInt_lt id)

/-- So is a kind. -/
theorem spells_kind (kind : SectionKind) :
    encodeInt kind.tag.toNat ≠ [] ∧ Spells 0 (encodeInt kind.tag.toNat) (intItem kind.tag.toNat) := by
  have := kind.tag.toNat_lt
  exact spells_int (by omega) (by omega)

/-- An export is a map of three entries. -/
theorem spells_export {e : Export} (h : e.name.length < 2 ^ 63) :
    Spells 1 (encodeExport e) (exportItem e) := by
  have hid := spells_id e.id
  have hkind := spells_kind e.kind
  have hparts : SpellsAll 0
      [encodeText "id", encodeInt e.id.toInt, encodeText "kind", encodeInt e.kind.tag.toNat,
        encodeText "name", encodeText e.name]
      [key "id", intItem e.id.toInt, key "kind", intItem e.kind.tag.toNat, key "name",
        .text [e.name]] :=
    .cons (encodeText_ne_nil _) (spells_text (by decide)) <|
    .cons hid.1 hid.2 <|
    .cons (encodeText_ne_nil _) (spells_text (by decide)) <|
    .cons hkind.1 hkind.2 <|
    .cons (encodeText_ne_nil _) (spells_text (by decide)) <|
    .cons (encodeText_ne_nil _) (spells_text h) .nil
  have hmap := spells_map hparts rfl rfl (Nat.le_of_ble_eq_true rfl)
  simpa [encodeExport, exportItem, List.append_assoc] using hmap

/-- A list whose members are spelled, or null. -/
theorem spells_list? {α : Type} {depth : Nat} {write : α → Text} {item : α → Item}
    {members? : Option (List α)} (hcount : (members?.getD []).length ≤ maxEntries)
    (h : ∀ a ∈ members?.getD [], write a ≠ [] ∧ Spells depth (write a) (item a)) :
    encodeList? (members?.map (·.map write)) ≠ []
      ∧ Spells (depth + 1) (encodeList? (members?.map (·.map write)))
          (listItem (members?.map (·.map item))) := by
  cases members? with
  | none => exact ⟨by simp [encodeList?], spells_null.deeper (by omega)⟩
  | some members =>
    have hpos := encodeHead_length_pos 4 (members.map write).length
    have harray := spells_array (spellsAll_map h) (by simpa using hcount)
    refine ⟨List.ne_nil_of_length_pos ?_, harray⟩
    simp only [Option.map_some, encodeList?, List.length_append]
    omega

theorem encodeExport_ne_nil (e : Export) : encodeExport e ≠ [] := by
  have hpos := encodeHead_length_pos 5 3
  refine List.ne_nil_of_length_pos ?_
  simp only [encodeExport, List.length_append]
  omega

/-- The bytes of a table spell its item, when the texts in it are not too long. -/
theorem spells_table {t : ExportTable} (h : t.Storable)
    (hnames : ∀ e ∈ t.exports, e.name.length < 2 ^ 63)
    (hdependencies : ∀ d ∈ t.dependencies, d.length < 2 ^ 63) :
    Spells 3 t.encode t.item := by
  have hexports := spells_list? h.fewExports fun e he =>
    ⟨encodeExport_ne_nil e, spells_export (hnames e he)⟩
  have hdeps := spells_list? h.fewDependencies fun d hd =>
    ⟨encodeText_ne_nil d, (spells_text (hdependencies d hd)).deeper (show 0 ≤ 1 by omega)⟩
  have hparts : SpellsAll 2
      [encodeText "exports", encodeList? (t.exports?.map (·.map encodeExport)),
        encodeText "dependencies", encodeList? (t.dependencies?.map (·.map encodeText))]
      [key "exports", listItem (t.exports?.map (·.map exportItem)), key "dependencies",
        listItem (t.dependencies?.map (·.map fun d => .text [d]))] :=
    .cons (encodeText_ne_nil _) ((spells_text (by decide)).deeper (by omega)) <|
    .cons hexports.1 hexports.2 <|
    .cons (encodeText_ne_nil _) ((spells_text (by decide)).deeper (by omega)) <|
    .cons hdeps.1 hdeps.2 .nil
  have hmap := spells_map hparts rfl rfl (Nat.le_of_ble_eq_true rfl)
  simpa [encode, item, List.append_assoc] using hmap

/-! ## The reader takes the item to the table -/

/-- A text entry is taken if it is UTF-8. -/
theorem textEntry_text {old t : Text} (h : t.isUtf8 = true) :
    textEntry old (.text [t]) = some t := by
  simp [textEntry, untagged, readText, h]

/-- An integer entry is taken within its range. -/
theorem intEntry_intItem {low high old n : Int} (hlow : low ≤ n) (hhigh : n ≤ high) :
    intEntry low high old (intItem n) = some n := by
  unfold intItem
  split
  next h =>
    have hn : -1 - ((-1 - n).toNat : Int) = n := by omega
    have hzero : ¬ (low == 0) = true := by
      rw [beq_iff_eq]
      omega
    have hbounds : (low ≤ n && n ≤ high) = true := by simp [hlow, hhigh]
    show (if low == 0 then none else if low ≤ -1 - ((-1 - n).toNat : Int)
      && -1 - ((-1 - n).toNat : Int) ≤ high then some (-1 - ((-1 - n).toNat : Int)) else none) = _
    rw [if_neg hzero, hn, if_pos hbounds]
  next h =>
    have hmax : max n 0 = n := by omega
    simp [intEntry, untagged, hmax, hlow, hhigh]

/-- An exact key that is still free takes its value. -/
theorem fieldEntries_key {names seen : List Text} {name : Text} {value : Item}
    {rest : List (Item × Item)} (hascii : ∀ b ∈ name, b < 0x80)
    (hfree : fieldOf names seen name = some name) :
    fieldEntries names seen ((key name, value) :: rest)
      = (fieldEntries names (name :: seen) rest).map ((name, value) :: ·) := by
  have htext : readText [name] = some name := by simp [readText, Text.isUtf8_of_ascii hascii]
  cases hmore : fieldEntries names (name :: seen) rest <;>
    simp [fieldEntries, key, htext, hfree, hmore]

/-- An export is read back entry by entry. -/
theorem readExport_exportItem {e : Export} (h : e.name.isUtf8 = true) :
    readExport (exportItem e) = some e := by
  have hfields : fieldEntries ["name", "id", "kind"] []
      [(key "id", intItem e.id.toInt), (key "kind", intItem e.kind.tag.toNat),
        (key "name", .text [e.name])]
      = some [(Text.ofString "id", intItem e.id.toInt),
          (Text.ofString "kind", intItem e.kind.tag.toNat),
          (Text.ofString "name", .text [e.name])] := by
    rw [fieldEntries_key (by decide) (by decide), fieldEntries_key (by decide)
      (by decide), fieldEntries_key (by decide) (by decide)]
    rfl
  have hid : ∀ old, intEntry (-0x8000000000000000) 0x7FFFFFFFFFFFFFFF old (intItem e.id.toInt)
      = some e.id.toInt := fun _ =>
    intEntry_intItem (Int64.le_toInt e.id) (Int.le_of_lt_add_one (Int64.toInt_lt e.id))
  have hkind : ∀ old, intEntry 0 255 old (intItem e.kind.tag.toNat) = some (e.kind.tag.toNat : Int) :=
    fun _ => intEntry_intItem (by omega) (by have := e.kind.tag.toNat_lt; omega)
  have hname : ∀ old, textEntry old (.text [e.name]) = some e.name := fun _ => textEntry_text h
  have hidKey : Text.ofString "id" ≠ Text.ofString "name" := by decide
  have hkindKey : Text.ofString "kind" ≠ Text.ofString "name" := by decide
  have hkindKey' : Text.ofString "kind" ≠ Text.ofString "id" := by decide
  simp [readExport, exportItem, untagged, hfields, hid, hkind, hname, hidKey, hkindKey, hkindKey']

/-- A list is read member by member; null is the absent list. -/
theorem listEntry_listItem {α : Type} (read : Item → Option α) {item : α → Item}
    {members? : Option (List α)} (h : ∀ a ∈ members?.getD [], read (item a) = some a) :
    listEntry read (listItem (members?.map (·.map item))) = some members? := by
  cases members? with
  | none => rfl
  | some members =>
    have hread : (members.map item).mapM read = some members := by
      induction members with
      | nil => rfl
      | cons a members ih =>
        have hmore := ih fun b hb => h b (by simp at hb ⊢; exact .inr hb)
        simp [List.mapM_cons, h a (by simp), hmore]
    simp [listEntry, listItem, untagged, hread]

/-- A table is read back from its item. -/
theorem ofItem_item {t : ExportTable} (h : t.Storable) : ofItem t.item = some t := by
  have hfields : fieldEntries ["exports", "dependencies"] []
      [(key "exports", listItem (t.exports?.map (·.map exportItem))),
        (key "dependencies", listItem (t.dependencies?.map (·.map fun d => .text [d])))]
      = some [(Text.ofString "exports", listItem (t.exports?.map (·.map exportItem))),
          (Text.ofString "dependencies",
            listItem (t.dependencies?.map (·.map fun d => .text [d])))] := by
    rw [fieldEntries_key (by decide) (by decide), fieldEntries_key (by decide)
      (by decide)]
    rfl
  have hexports := listEntry_listItem readExport fun e he => readExport_exportItem (h.names e he)
  have hdependencies := listEntry_listItem (textEntry []) fun d hd =>
    textEntry_text (h.dependencies d hd)
  have hkey : Text.ofString "dependencies" ≠ Text.ofString "exports" := by decide
  simp [ofItem, item, untagged, hfields, hexports, hdependencies, hkey]

/-- A member of a stored list takes no more room than the list. -/
theorem length_le_encodeList? {α : Type} (write : α → Text) {members? : Option (List α)} {a : α}
    (h : a ∈ members?.getD []) :
    (write a).length ≤ (encodeList? (members?.map (·.map write))).length := by
  cases members? with
  | none => simp at h
  | some members =>
    have hmem : write a ∈ members.map write := List.mem_map_of_mem h
    have hle := (List.sublist_flatten_of_mem hmem).length_le
    simp only [Option.map_some, encodeList?, List.length_append]
    omega

/-- No name is longer than the table. -/
theorem name_length_le_encode {t : ExportTable} {e : Export} (h : e ∈ t.exports) :
    e.name.length ≤ t.encode.length := by
  have hle := length_le_encodeList? encodeExport h
  have hname : e.name.length ≤ (encodeExport e).length := by
    simp only [encodeExport, encodeText, List.length_append]
    omega
  simp only [encode, List.length_append]
  omega

theorem dependency_length_le_encode {t : ExportTable} {d : Text} (h : d ∈ t.dependencies) :
    d.length ≤ t.encode.length := by
  have hle := length_le_encodeList? encodeText h
  have hd : d.length ≤ (encodeText d).length := by
    simp only [encodeText, List.length_append]
    omega
  simp only [encode, List.length_append]
  omega

/-- A table is read back from its bytes. -/
theorem decode_encode {t : ExportTable} (h : t.Storable) (hsize : t.encode.length < 2 ^ 63) :
    decode t.encode = some t := by
  have hspells := spells_table h
    (fun e he => Nat.lt_of_le_of_lt (name_length_le_encode he) hsize)
    (fun d hd => Nat.lt_of_le_of_lt (dependency_length_le_encode hd) hsize)
  rw [decode, hspells.decode (by decide), Option.bind_some, ofItem_item h]

/-- What a stored form promises: a table that it can hold is read back from its bytes. -/
structure Format.Faithful (format : Format) : Prop where
  read_write : ∀ t : ExportTable, t.Storable → (format.write t).length < 2 ^ 63 →
    format.read (format.write t) = some t

/-- The encoding that the compiler uses reads back what it writes. -/
theorem faithful_concise : concise.Faithful := ⟨fun _ => decode_encode⟩

end ExportTable

end TickScript
