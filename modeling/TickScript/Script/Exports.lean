import TickScript.Script.Basic
import TickScript.Script.Cbor

/-!
# The stored export table

The table is a map with the keys `exports` and `dependencies`; an export is a map with the keys
`id`, `kind` and `name`. Keys are written in that order, shorter ones first. Reading takes the keys
in any order, ignores keys it does not know, lets the first of two equal keys win and tolerates
another case in a key when the exact one does not occur.
-/

namespace TickScript

open TickScript.Cbor

namespace ExportTable

/-! ## Writing -/

/-- The bytes of one export. -/
def encodeExport (e : Export) : Text :=
  encodeHead 5 3
    ++ encodeText "id" ++ encodeInt e.id.toInt
    ++ encodeText "kind" ++ encodeInt e.kind.tag.toNat
    ++ encodeText "name" ++ encodeText e.name

/-- The bytes of a table. -/
def encode (t : ExportTable) : Text :=
  encodeHead 5 2
    ++ encodeText "exports" ++ encodeList? (t.exports?.map (·.map encodeExport))
    ++ encodeText "dependencies" ++ encodeList? (t.dependencies?.map (·.map encodeText))

/-! ## Reading -/

/-- The number that the bytes of a long integer spell. -/
def bignum (content : Item) : Option Nat :=
  match content with
  | .bytes b => some (bigEndian b)
  | _ => none

/-- Whether the content of a tag of the standard has the kind that the tag asks for. -/
def tagAllows (tag : Nat) (content : Item) : Bool :=
  match tag, content with
  | 0, .text _ => true
  | 0, _ => false
  | 1, .unsigned _ => true
  | 1, .negative _ => true
  | 1, .float => true
  | 1, _ => false
  | 2, .bytes _ => true
  | 2, _ => false
  | 3, .bytes _ => true
  | 3, _ => false
  | _, _ => true

/-- The tag that only says that concise binary objects follow. -/
def selfDescribing : Nat := 55799

/-- The item below its tags, long integers as plain ones; none when a tag forbids its content. -/
def untagged : Item → Option Item
  | .tagged tag content =>
    if tag == selfDescribing then untagged content
    else if !tagAllows tag content then none
    else if tag == 2 then (bignum content).map .unsigned
    else if tag == 3 then (bignum content).map .negative
    else untagged content
  | item => some item

/-- A valid text. -/
def readText (chunks : List Text) : Option Text :=
  if chunks.all Text.isUtf8 then some chunks.flatten else none

/-- A text entry, where null leaves the text that was there. -/
def textEntry (old : Text) (item : Item) : Option Text := do
  match ← untagged item with
  | .text chunks => readText chunks
  | .null => some old
  | _ => none

/-- An integer entry between two bounds, where null leaves the number that was there. -/
def intEntry (low high : Int) (old : Int) (item : Item) : Option Int := do
  let bounded (n : Int) : Option Int := if low ≤ n && n ≤ high then some n else none
  match ← untagged item with
  | .unsigned n => bounded n
  | .negative n => if low == 0 then none else bounded (-1 - n)
  | .simple n => bounded n
  | .null => some old
  | _ => none

/-- Which of some names a key stands for, among those not seen yet: the exact one, or else one that
differs in case only. -/
def fieldOf (names : List Text) (seen : List Text) (key : Text) : Option Text :=
  let free := names.filter fun name => !seen.contains name
  match free.find? (· == key) with
  | some name => some name
  | none => free.find? fun name => Text.lower name == Text.lower key

/-- The entries of a map that belong to a field, in order, each with the field's name. Keys that are
no text or number are refused, unknown ones dropped. -/
def fieldEntries (names : List Text) :
    (seen : List Text) → List (Item × Item) → Option (List (Text × Item))
  | _, [] => some []
  | seen, (key, value) :: rest =>
    match key with
    | .text chunks => do
      let key ← readText chunks
      match fieldOf names seen key with
      | some name => do
        let more ← fieldEntries names (name :: seen) rest
        some ((name, value) :: more)
      | none => fieldEntries names seen rest
    | .unsigned _ => fieldEntries names seen rest
    | .negative n => if 0x8000000000000000 ≤ n then none else fieldEntries names seen rest
    | _ => none

/-- One export from its map; null stands for an export without entries. -/
def readExport (item : Item) : Option Export := do
  match ← untagged item with
  | .null => some {}
  | .map entries =>
    let fields ← fieldEntries ["name", "id", "kind"] [] entries
    fields.foldlM (fun (e : Export) field =>
      if field.1 == Text.ofString "name" then do
        return { e with name := ← textEntry e.name field.2 }
      else if field.1 == Text.ofString "id" then do
        let n ← intEntry (-0x8000000000000000) 0x7FFFFFFFFFFFFFFF e.id.toInt field.2
        return { e with id := Int64.ofInt n }
      else do
        let n ← intEntry 0 255 e.kind.tag.toNat field.2
        return { e with kind := ⟨n.toNat.toUInt8⟩ }) {}
  | _ => none

/-- A list entry; null stands for an absent list. -/
def listEntry {α : Type} (read : Item → Option α) (item : Item) : Option (Option (List α)) := do
  match ← untagged item with
  | .array items => some (some (← items.mapM read))
  | .null => some none
  | _ => none

/-- A table from its item; null stands for a table without entries. -/
def ofItem (item : Item) : Option ExportTable := do
  match ← untagged item with
  | .null => some {}
  | .map entries =>
    let fields ← fieldEntries ["exports", "dependencies"] [] entries
    fields.foldlM (fun (t : ExportTable) field =>
      if field.1 == Text.ofString "exports" then do
        return { t with exports? := ← listEntry readExport field.2 }
      else do
        return { t with dependencies? := ← listEntry (textEntry []) field.2 }) {}
  | _ => none

/-- The table that some bytes hold. -/
def decode (data : Text) : Option ExportTable := (Item.decode data).bind ofItem

/-- A form in which tables are stored: a writer, and a reader with no answer for malformed bytes. -/
structure Format where
  write : ExportTable → Text
  read : Text → Option ExportTable

/-- The form of concise binary objects. -/
def concise : Format := ⟨encode, decode⟩

@[simp] theorem concise_write : concise.write = encode := rfl

@[simp] theorem concise_read : concise.read = decode := rfl

end ExportTable

end TickScript
