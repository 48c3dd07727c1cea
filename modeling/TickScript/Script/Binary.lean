import TickScript.Script.Exports
import TickScript.Text.Quoted

/-!
# The binary format

A binary is a magic word, a format version, the number of sections and the sections, each with its
kind, its id and its length in front of its data. A script ends in a reserved word, a library in its
export table with the table's length in front. What follows is ignored.
-/

namespace TickScript

/-- Why a script has no binary form. -/
inductive EncodeError where
  /-- A section without a kind. -/
  | noKind (id : Id)
deriving DecidableEq, Repr

/-- The wording of an encoding error. -/
def EncodeError.message : EncodeError → Text
  | .noKind id => "section " ++ Text.ofInt id.toInt ++ " has no kind"

/-- Why some bytes are no binary. -/
inductive BinaryError where
  | tooShort (length : Nat)
  | badMagic (found : Text)
  | tooNew (version : UInt32)
  | cutHeader (index position : Nat)
  | badKind (index : Nat) (kind : UInt8)
  | cutSection (index count position : Nat)
  | cutTrailer (position : Nat)
  | cutTable (count : Nat)
  /-- The export table is malformed. -/
  | badTable
deriving DecidableEq, Repr

/-- The four bytes that open a script. -/
def scriptMagic : Text := "BGSL"

/-- The four bytes that open a library. -/
def libraryMagic : Text := "BGLL"

/-- The wording of a binary error. -/
def BinaryError.message : BinaryError → Text
  | .tooShort length => "binary too short: need at least 16 bytes, got " ++ Text.ofNat length
  | .badMagic found =>
    "invalid magic: expected " ++ Text.quote scriptMagic ++ " or " ++ Text.quote libraryMagic
      ++ ", got " ++ Text.quote found
  | .tooNew version =>
    "format version " ++ Text.ofNat version.toNat ++ " is newer than supported version "
      ++ Text.ofNat formatVersion.toNat
  | .cutHeader index position =>
    "unexpected end of binary reading section " ++ Text.ofNat index ++ " header at pos "
      ++ Text.ofNat position
  | .badKind index kind =>
    "section " ++ Text.ofNat index ++ " has invalid kind " ++ Text.ofNat kind.toNat
  | .cutSection index count position =>
    "unexpected end of binary reading section " ++ Text.ofNat index ++ ": need " ++ Text.ofNat count
      ++ " bytes at pos " ++ Text.ofNat position
  | .cutTrailer position =>
    "unexpected end of binary reading trailer at pos " ++ Text.ofNat position
  | .cutTable count =>
    "unexpected end of binary reading export table: need " ++ Text.ofNat count ++ " bytes"
  | .badTable => "malformed export table"

namespace Script

/-! ## Writing -/

/-- The bytes of one section. -/
def encodeSection (s : Section) : Except EncodeError Text :=
  if s.kind = .missing then .error (.noKind s.id)
  else .ok (s.kind.tag :: Text.littleEndian 8 s.id.toUInt64.toNat
    ++ Text.littleEndian 8 s.data.length ++ s.data)

/-- The bytes of a script, the table of a library in a given form. -/
def encodeIn (format : ExportTable.Format) (s : Script) : Except EncodeError Text := do
  let magic := if s.library?.isSome then libraryMagic else scriptMagic
  let header := magic ++ Text.littleEndian 4 s.version.toNat
    ++ Text.littleEndian 8 s.sections.length
  let sections ← s.sections.mapM encodeSection
  let trailer := match s.library? with
    | none => Text.littleEndian 8 0
    | some table =>
      let bytes := format.write table
      Text.littleEndian 8 bytes.length ++ bytes
  return header ++ sections.flatten ++ trailer

/-- The bytes of a script. -/
def encode (s : Script) : Except EncodeError Text := s.encodeIn ExportTable.concise

/-! ## Reading -/

/-- The sections at the front of `bytes`, which stand at `position`. The header of every section
takes bytes, so the claimed number of sections costs nothing beyond them. -/
def decodeSections (index position : Nat) (count : Nat) (bytes : Text) :
    Except BinaryError (List Section × Nat × Text) :=
  if count = 0 then .ok ([], position, bytes)
  else
    let header := bytes.take 17
    if header.length < 17 then .error (.cutHeader index position)
    else
      let tag := header.headD 0
      let kind : SectionKind := ⟨tag⟩
      let id := (UInt64.ofNat (Text.ofLittleEndian ((header.drop 1).take 8))).toInt64
      let size := Text.ofLittleEndian (header.drop 9)
      let rest := bytes.drop 17
      if !kind.isKnown then .error (.badKind index tag)
      else if rest.length < size then .error (.cutSection index size (position + 17))
      else
        match decodeSections (index + 1) (position + 17 + size) (count - 1) (rest.drop size) with
        | .error e => .error e
        | .ok (more, stop, tail) => .ok (⟨kind, id, rest.take size⟩ :: more, stop, tail)
termination_by count

/-- The script that some bytes hold, the table of a library in a given form. -/
def decodeIn (format : ExportTable.Format) (data : Text) : Except BinaryError Script := do
  if data.length < 16 then throw (.tooShort data.length)
  let magic := data.take 4
  if magic != scriptMagic && magic != libraryMagic then throw (.badMagic magic)
  let version := UInt32.ofNat (Text.ofLittleEndian ((data.drop 4).take 4))
  if formatVersion < version then throw (.tooNew version)
  let count := Text.ofLittleEndian ((data.drop 8).take 8)
  let (sections, position, rest) ← decodeSections 0 16 count (data.drop 16)
  if rest.length < 8 then throw (.cutTrailer position)
  let trailer := Text.ofLittleEndian (rest.take 8)
  let tail := rest.drop 8
  if magic == scriptMagic then return ⟨version, sections, none⟩
  if tail.length < trailer then throw (.cutTable trailer)
  match format.read (tail.take trailer) with
  | some table => return ⟨version, sections, some table⟩
  | none => throw .badTable

/-- The script that some bytes hold. -/
def decode (data : Text) : Except BinaryError Script := decodeIn ExportTable.concise data

end Script

end TickScript
