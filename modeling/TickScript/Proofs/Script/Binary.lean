import Mathlib.Algebra.GroupWithZero.Nat
import TickScript.Script.Binary
import TickScript.Proofs.Script.Exports

/-!
# Scripts and their binaries

A script of known kinds always has a binary, and the binary is read back to the same script, table
of a library included. In the other direction a binary without a table is canonical: encoding what
was read gives the bytes up to the end of the last section again, and only the reserved word and
what follows it may differ. The lengths that a binary holds are words, so the first direction asks
that the binary is no longer than a byte string can be.

The table of a library is written by a codec for documents in general, which has no part in the
sections. What is needed of it are two laws, that it reads what it wrote and that it refuses or
accepts by the bytes alone; the main argument is made over any such codec (`round_trip_in`), and
`binary_round_trip` is the case of the one that is used.
-/

namespace TickScript

/-- There are three kinds of sections. -/
theorem SectionKind.isKnown_iff {kind : SectionKind} :
    kind.isKnown = true ↔ kind ∈ [SectionKind.field, .var, .function] := by
  obtain ⟨tag⟩ := kind
  simp only [isKnown, Bool.and_eq_true, decide_eq_true_eq, List.mem_cons, List.not_mem_nil, or_false,
    field, var, function, SectionKind.mk.injEq, UInt8.le_iff_toNat_le, ← UInt8.toNat_inj]
  change 1 ≤ tag.toNat ∧ tag.toNat ≤ 3 ↔ tag.toNat = 1 ∨ tag.toNat = 2 ∨ tag.toNat = 3
  omega

namespace Script

/-! ## Sections -/

/-- The bytes of one section that has a kind. -/
def sectionBytes (s : Section) : Text :=
  s.kind.tag :: Text.littleEndian 8 s.id.toUInt64.toNat ++ Text.littleEndian 8 s.data.length ++ s.data

/-- The tag, the id and the size take 17 bytes. -/
theorem length_sectionBytes (s : Section) : (sectionBytes s).length = 17 + s.data.length := by
  simp [sectionBytes]
  omega

/-- Sections of known kinds are all written. -/
theorem mapM_encodeSection {sections : List Section}
    (h : ∀ x ∈ sections, x.kind.isKnown = true) :
    sections.mapM encodeSection = .ok (sections.map sectionBytes) := by
  induction sections with
  | nil => rfl
  | cons x sections ih =>
    have hkind : x.kind ≠ .missing := by
      intro hmissing
      have := h x (by simp)
      rw [hmissing] at this
      exact absurd this (by decide)
    have hrest := ih fun y hy => h y (by simp [hy])
    simp [List.mapM_cons, encodeSection, hkind, hrest, sectionBytes, bind, Except.bind, pure, Except.pure]

theorem word_ofLittleEndian {n : Nat} (h : n < 2 ^ 64) :
    Text.ofLittleEndian (Text.littleEndian 8 n) = n := by
  rw [Text.ofLittleEndian_littleEndian]
  exact Nat.mod_eq_of_lt h

/-- An id comes back from its eight bytes, with its sign. -/
theorem id_ofLittleEndian (id : Id) :
    (UInt64.ofNat (Text.ofLittleEndian (Text.littleEndian 8 id.toUInt64.toNat))).toInt64 = id := by
  rw [word_ofLittleEndian (UInt64.toNat_lt _), UInt64.ofNat_toNat]
  rfl

/-- One pass of the reader over a header in front of `rest`. -/
theorem decodeSections_header {id size : Text} (hid : id.length = 8) (hsize : size.length = 8)
    (tag : UInt8) (index position count : Nat) (rest : Text) :
    decodeSections index position (count + 1) (tag :: id ++ size ++ rest)
      = if !(SectionKind.mk tag).isKnown then .error (.badKind index tag)
        else if rest.length < Text.ofLittleEndian size then
          .error (.cutSection index (Text.ofLittleEndian size) (position + 17))
        else
          (decodeSections (index + 1) (position + 17 + Text.ofLittleEndian size) count
              (rest.drop (Text.ofLittleEndian size))).map fun found =>
            (⟨⟨tag⟩, (UInt64.ofNat (Text.ofLittleEndian id)).toInt64,
              rest.take (Text.ofLittleEndian size)⟩ :: found.1, found.2) := by
  have hlen : (tag :: id ++ size).length = 17 := by simp [hid, hsize]
  have hidPart : ((tag :: id ++ size).drop 1).take 8 = id := List.take_left' hid
  have hsizePart : (tag :: id ++ size).drop 9 = size :=
    List.drop_left' (show (tag :: id).length = 9 by simp [hid])
  rw [decodeSections, if_neg (by omega), List.take_left' hlen, List.drop_left' hlen]
  simp only [hlen, Nat.lt_irrefl, if_false, hidPart, hsizePart, Nat.add_sub_cancel]
  simp only [List.cons_append, List.headD_cons]
  cases decodeSections (index + 1) (position + 17 + Text.ofLittleEndian size) count
    (rest.drop (Text.ofLittleEndian size)) <;> rfl

/-- The sections come back, at whatever position they stand. -/
theorem decodeSections_sectionBytes {sections : List Section}
    (hkinds : ∀ x ∈ sections, x.kind.isKnown = true)
    (hdata : ∀ x ∈ sections, x.data.length < 2 ^ 64) (index position : Nat) (rest : Text) :
    ∃ stop, decodeSections index position sections.length
      ((sections.map sectionBytes).flatten ++ rest) = .ok (sections, stop, rest) := by
  induction sections generalizing index position with
  | nil => exact ⟨position, by simp [decodeSections]⟩
  | cons x sections ih =>
    obtain ⟨stop, hstop⟩ := ih (fun y hy => hkinds y (by simp [hy]))
      (fun y hy => hdata y (by simp [hy])) (index + 1) (position + 17 + x.data.length)
    have hkind : (SectionKind.mk x.kind.tag).isKnown = true := hkinds x (by simp)
    have hsize := word_ofLittleEndian (hdata x (by simp))
    refine ⟨stop, ?_⟩
    simp only [List.map_cons, List.flatten_cons, List.length_cons, sectionBytes, List.append_assoc _ x.data]
    rw [List.append_assoc, decodeSections_header (Text.length_littleEndian _ _) (Text.length_littleEndian _ _),
      hkind, hsize, id_ofLittleEndian, if_neg (by simp), if_neg (by simp), List.append_assoc,
      List.drop_left, List.take_left, hstop]
    rfl

/-- A text has the header of a section in front, or is shorter than one. -/
theorem header_or_short (bytes : Text) :
    (∃ tag id size rest, bytes = tag :: id ++ size ++ rest ∧ id.length = 8 ∧ size.length = 8)
      ∨ (bytes.take 17).length < 17 := by
  by_cases hlen : (bytes.take 17).length < 17
  · exact .inr hlen
  · left
    cases bytes with
    | nil => simp at hlen
    | cons tag bytes =>
      simp only [List.length_take, List.length_cons] at hlen
      refine ⟨tag, bytes.take 8, (bytes.drop 8).take 8, (bytes.drop 8).drop 8, ?_, ?_, ?_⟩
      · rw [List.append_assoc, List.take_append_drop, List.cons_append, List.take_append_drop]
      · simp; omega
      · simp; omega

theorem eq_littleEndian_of_length {t : Text} (h : t.length = 8) :
    t = Text.littleEndian 8 (Text.ofLittleEndian t) := by
  have hback := Text.littleEndian_ofLittleEndian t
  rw [h] at hback
  exact hback.symm

/-- Eight bytes are the word that they spell. -/
theorem littleEndian_id {t : Text} (h : t.length = 8) :
    Text.littleEndian 8 (UInt64.ofNat (Text.ofLittleEndian t)).toInt64.toUInt64.toNat = t := by
  have hlt := Text.ofLittleEndian_lt t
  rw [h] at hlt
  have hword : (UInt64.ofNat (Text.ofLittleEndian t)).toInt64.toUInt64.toNat
      = Text.ofLittleEndian t := UInt64.toNat_ofNat_of_lt' hlt
  rw [hword]
  exact (eq_littleEndian_of_length h).symm

/-- What reading sections has taken off the front is their bytes. -/
theorem eq_of_decodeSections {index position count : Nat} {bytes tail : Text}
    {sections : List Section} {stop : Nat}
    (h : decodeSections index position count bytes = .ok (sections, stop, tail)) :
    bytes = (sections.map sectionBytes).flatten ++ tail ∧ sections.length = count
      ∧ ∀ x ∈ sections, x.kind.isKnown = true := by
  induction count generalizing index position bytes sections with
  | zero =>
    rw [decodeSections, if_pos rfl] at h
    cases h
    exact ⟨rfl, rfl, by simp⟩
  | succ count ih =>
    -- a header, or less than that
    obtain ⟨tag, id, size, rest, rfl, hid, hsize⟩ | hshort := header_or_short bytes
    · rw [decodeSections_header hid hsize] at h
      split at h
      · cases h
      next hkind =>
        split at h
        · cases h
        next hroom =>
          cases hmore : decodeSections (index + 1) (position + 17 + Text.ofLittleEndian size) count
            (rest.drop (Text.ofLittleEndian size)) with
          | error e => rw [hmore] at h; cases h
          | ok found =>
            obtain ⟨more, stop', tail'⟩ := found
            rw [hmore] at h
            cases h
            obtain ⟨hbytes, hcount, hknown⟩ := ih hmore
            -- there is room for as many bytes as the size says, and these are the data
            have hdata : (rest.take (Text.ofLittleEndian size)).length
                = Text.ofLittleEndian size := by simp; omega
            refine ⟨?_, by simp [hcount], ?_⟩
            · simp only [List.map_cons, List.flatten_cons, sectionBytes, hdata]
              rw [littleEndian_id hid, ← eq_littleEndian_of_length hsize, List.append_assoc _ _ tail,
                ← hbytes, List.append_assoc _ (rest.take _), List.take_append_drop]
            · intro x hx
              obtain rfl | hx := List.mem_cons.1 hx
              · simpa using hkind
              · exact hknown x hx
    · rw [decodeSections, if_neg (by omega), if_pos hshort] at h
      cases h

/-! ## Whole binaries -/

/-- The first sixteen bytes. -/
def headerBytes (s : Script) : Text :=
  (if s.library?.isSome then libraryMagic else scriptMagic) ++ Text.littleEndian 4 s.version.toNat
    ++ Text.littleEndian 8 s.sections.length

/-- The bytes behind the sections. -/
def trailerBytes (format : ExportTable.Format) (s : Script) : Text :=
  match s.library? with
  | none => Text.littleEndian 8 0
  | some table => Text.littleEndian 8 (format.write table).length ++ format.write table

/-- A binary is the header, the sections and the trailer. -/
theorem encodeIn_eq (format : ExportTable.Format) {s : Script}
    (h : ∀ x ∈ s.sections, x.kind.isKnown = true) :
    s.encodeIn format
      = .ok (s.headerBytes ++ (s.sections.map sectionBytes).flatten ++ s.trailerBytes format) := by
  rw [encodeIn, mapM_encodeSection h]
  rfl

/-- The header takes 16 bytes. -/
theorem length_headerBytes (s : Script) : s.headerBytes.length = 16 := by
  have hlibrary : libraryMagic.length = 4 := by decide
  have hscript : scriptMagic.length = 4 := by decide
  unfold headerBytes
  split <;> simp [hlibrary, hscript]

/-- Where the sections of a binary end. -/
def sectionsEnd (s : Script) : Nat := 16 + (s.sections.map fun x => 17 + x.data.length).sum

theorem length_flatten_sectionBytes (sections : List Section) :
    (sections.map sectionBytes).flatten.length
      = (sections.map fun x => 17 + x.data.length).sum := by
  rw [List.length_flatten, List.map_map]
  congr 1
  exact List.map_congr_left fun x _ => length_sectionBytes x

/-- What the reader does behind a header of sixteen bytes. -/
theorem decodeIn_header (format : ExportTable.Format) {magic version count : Text}
    (hmagic : magic.length = 4) (hversion : version.length = 4) (hcount : count.length = 8)
    (rest : Text) : decodeIn format (magic ++ version ++ count ++ rest)
      = if magic ≠ scriptMagic ∧ magic ≠ libraryMagic then .error (.badMagic magic)
        else if formatVersion < UInt32.ofNat (Text.ofLittleEndian version) then
          .error (.tooNew (UInt32.ofNat (Text.ofLittleEndian version)))
        else (decodeSections 0 16 (Text.ofLittleEndian count) rest).bind fun found =>
          if found.2.2.length < 8 then .error (.cutTrailer found.2.1)
          else if magic = scriptMagic then
            .ok ⟨UInt32.ofNat (Text.ofLittleEndian version), found.1, none⟩
          else if (found.2.2.drop 8).length < Text.ofLittleEndian (found.2.2.take 8) then
            .error (.cutTable (Text.ofLittleEndian (found.2.2.take 8)))
          else match format.read
              ((found.2.2.drop 8).take (Text.ofLittleEndian (found.2.2.take 8))) with
            | some table => .ok ⟨UInt32.ofNat (Text.ofLittleEndian version), found.1, some table⟩
            | none => .error .badTable := by
  -- what the reader looks at are the parts that the bytes were put together from
  have hlen : ¬ (magic ++ version ++ count ++ rest).length < 16 := by
    simp only [List.length_append]
    omega
  have htake : (magic ++ version ++ count ++ rest).take 4 = magic := by
    rw [List.append_assoc, List.append_assoc, List.take_left' hmagic]
  have hmid : ((magic ++ version ++ count ++ rest).drop 4).take 4 = version := by
    rw [List.append_assoc, List.append_assoc, List.drop_left' hmagic, List.take_left' hversion]
  have hword : ((magic ++ version ++ count ++ rest).drop 8).take 8 = count := by
    rw [List.append_assoc, List.drop_left' (by simp [hmagic, hversion]), List.take_left' hcount]
  have hrest : (magic ++ version ++ count ++ rest).drop 16 = rest :=
    List.drop_left' (by simp [hmagic, hversion, hcount])
  cases hfound : decodeSections 0 16 (Text.ofLittleEndian count) rest with
  | error e =>
    simp only [decodeIn, bind, Except.bind, throw, throwThe, MonadExceptOf.throw, if_neg hlen, htake,
      hmid, hword, hrest, hfound, Bool.and_eq_true, bne_iff_ne, ne_eq]
  | ok found =>
    cases htable : format.read
        ((found.2.2.drop 8).take (Text.ofLittleEndian (found.2.2.take 8))) <;>
      simp only [decodeIn, bind, Except.bind, throw, throwThe, MonadExceptOf.throw, pure, Except.pure,
        if_neg hlen, htake, hmid, hword, hrest, hfound, htable, Bool.and_eq_true, bne_iff_ne,
        beq_iff_eq, ne_eq]

theorem version_ofLittleEndian (version : UInt32) :
    UInt32.ofNat (Text.ofLittleEndian (Text.littleEndian 4 version.toNat)) = version := by
  have hlt : version.toNat < 256 ^ 4 := version.toNat_lt
  rw [Text.ofLittleEndian_littleEndian, Nat.mod_eq_of_lt hlt, UInt32.ofNat_toNat]

/-- No section is longer than all of them. -/
theorem length_le_flatten_sectionBytes {sections : List Section} {x : Section} (h : x ∈ sections) :
    x.data.length ≤ (sections.map sectionBytes).flatten.length := by
  have hmem : sectionBytes x ∈ sections.map sectionBytes := List.mem_map_of_mem h
  have hle := (List.sublist_flatten_of_mem hmem).length_le
  rw [length_sectionBytes] at hle
  omega

/-- Each section has some bytes, so there are no more sections than bytes. -/
theorem count_le_flatten_sectionBytes (sections : List Section) :
    sections.length ≤ (sections.map sectionBytes).flatten.length := by
  induction sections with
  | nil => exact Nat.le_refl 0
  | cons x sections ih =>
    simp only [List.map_cons, List.flatten_cons, List.length_append, length_sectionBytes,
      List.length_cons]
    omega

/-- The bytes of a script are read back to the script. -/
theorem decodeIn_encoded {format : ExportTable.Format} (hformat : format.Faithful) {s : Script}
    (hversion : s.version ≤ formatVersion) (hkinds : ∀ x ∈ s.sections, x.kind.isKnown = true)
    (htable : ∀ t ∈ s.library?, t.Storable)
    (hsize : (s.headerBytes ++ (s.sections.map sectionBytes).flatten ++ s.trailerBytes format).length
      < 2 ^ 63) :
    decodeIn format (s.headerBytes ++ (s.sections.map sectionBytes).flatten ++ s.trailerBytes format)
      = .ok s := by
  simp only [List.length_append] at hsize
  -- the count and the sizes fit their words, since the whole is short enough
  have hcount : s.sections.length < 2 ^ 64 := by
    have := count_le_flatten_sectionBytes s.sections
    omega
  -- header and sections are read; what is left depends on whether there is a table
  obtain ⟨stop, hstop⟩ := decodeSections_sectionBytes hkinds
    (fun x hx => by have := length_le_flatten_sectionBytes hx; omega) 0 16 (s.trailerBytes format)
  have hnew : ¬ formatVersion < s.version := UInt32.not_lt.2 hversion
  rw [headerBytes, List.append_assoc, decodeIn_header format (by split <;> decide)
    (Text.length_littleEndian _ _) (Text.length_littleEndian _ _), version_ofLittleEndian,
    word_ofLittleEndian hcount, hstop, if_neg hnew]
  obtain ⟨version, sections, library?⟩ := s
  cases library? with
  | none => simp [trailerBytes, Except.bind]
  | some table =>
    have hlen : (format.write table).length < 2 ^ 63 := by
      simp only [trailerBytes, List.length_append] at hsize
      omega
    have hword := word_ofLittleEndian (show (format.write table).length < 2 ^ 64 by omega)
    have hother : libraryMagic ≠ scriptMagic := by decide
    -- the table is read back by the law of the stored form
    have hread := hformat.read_write table (htable table rfl) hlen
    have htake : (Text.littleEndian 8 (format.write table).length ++ format.write table).take 8
        = Text.littleEndian 8 (format.write table).length := List.take_left' (by simp)
    have hdrop : (Text.littleEndian 8 (format.write table).length ++ format.write table).drop 8
        = format.write table := List.drop_left' (by simp)
    simp [trailerBytes, Except.bind, hother, htake, hdrop, hword, hread]

theorem littleEndian_version {t : Text} (h : t.length = 4) :
    Text.littleEndian 4 (UInt32.ofNat (Text.ofLittleEndian t)).toNat = t := by
  have hlt := Text.ofLittleEndian_lt t
  have hback := Text.littleEndian_ofLittleEndian t
  rw [h] at hlt hback
  rw [UInt32.toNat_ofNat_of_lt' hlt, hback]

/-- Data that are long enough begin with something of the shape of a header. -/
theorem header_of_length {data : Text} (h : ¬ data.length < 16) :
    ∃ magic version count body, data = magic ++ version ++ count ++ body
      ∧ magic.length = 4 ∧ version.length = 4 ∧ count.length = 8 := by
  refine ⟨data.take 4, (data.drop 4).take 4, ((data.drop 4).drop 4).take 8,
    ((data.drop 4).drop 4).drop 8, ?_, ?_, ?_, ?_⟩
  · rw [List.append_assoc, List.take_append_drop, List.append_assoc, List.take_append_drop,
      List.take_append_drop]
  all_goals simp; omega

/-- A plain script that was read has the bytes it was read from, up to the end of its last
section. -/
theorem eq_of_decodeIn {format : ExportTable.Format} {data : Text} {s : Script}
    (h : decodeIn format data = .ok s) (hplain : s.library? = none) :
    (∀ x ∈ s.sections, x.kind.isKnown = true)
      ∧ ∃ rest, 8 ≤ rest.length
        ∧ data = s.headerBytes ++ (s.sections.map sectionBytes).flatten ++ rest := by
  by_cases hshort : data.length < 16
  · simp only [decodeIn, if_pos hshort] at h
    cases h
  obtain ⟨magic, version, count, body, rfl, hmagic, hversion, hcount⟩ := header_of_length hshort
  rw [decodeIn_header format hmagic hversion hcount] at h
  split at h
  · cases h
  split at h
  · cases h
  cases hsections : decodeSections 0 16 (Text.ofLittleEndian count) body with
  | error e => rw [hsections] at h; cases h
  | ok found =>
    obtain ⟨sections, stop, rest⟩ := found
    rw [hsections] at h
    simp only [Except.bind] at h
    split at h
    · cases h
    next hroom =>
      split at h
      next hscript =>
        cases h
        obtain ⟨hbody, hlength, hknown⟩ := eq_of_decodeSections hsections
        refine ⟨hknown, rest, by omega, ?_⟩
        simp only [headerBytes, Option.isSome_none, Bool.false_eq_true, if_false, hlength]
        rw [← hscript, littleEndian_version hversion, ← eq_littleEndian_of_length hcount, hbody]
        simp only [List.append_assoc]
      next =>
        -- The reader only leaves the table out behind the mark of a script.
        split at h
        · cases h
        split at h
        · cases h
          cases hplain
        · cases h

/-- Writing and reading are inverse in every form that is faithful to the table of a library. -/
theorem round_trip_in {format : ExportTable.Format} (hformat : format.Faithful) :
    (∀ s : Script, s.version ≤ formatVersion
        → (∀ x ∈ s.sections, x.kind ∈ [SectionKind.field, .var, .function])
        → (∀ t ∈ s.library?, t.Storable)
        → ∃ bytes, s.encodeIn format = .ok bytes
          ∧ (bytes.length < 2 ^ 63 → decodeIn format bytes = .ok s))
      ∧ ∀ (data : Text) (s : Script), decodeIn format data = .ok s → s.library? = none
        → s.sectionsEnd + 8 ≤ data.length
          ∧ s.encodeIn format = .ok (data.take s.sectionsEnd ++ Text.littleEndian 8 0) := by
  constructor
  · intro s hversion hkinds htable
    have hknown : ∀ x ∈ s.sections, x.kind.isKnown = true :=
      fun x hx => SectionKind.isKnown_iff.2 (hkinds x hx)
    exact ⟨_, encodeIn_eq format hknown, decodeIn_encoded hformat hversion hknown htable⟩
  · intro data s hread hplain
    obtain ⟨hknown, rest, hroom, rfl⟩ := eq_of_decodeIn hread hplain
    have hend : (s.headerBytes ++ (s.sections.map sectionBytes).flatten).length = s.sectionsEnd := by
      rw [List.length_append, length_headerBytes, length_flatten_sectionBytes, sectionsEnd]
    constructor
    · rw [List.length_append, hend]
      omega
    · rw [List.take_left' hend, encodeIn_eq format hknown, trailerBytes, hplain]

/-- Writing and reading are inverse. A script whose version is supported and whose sections have a
known kind is always written, and what was written is read back to the same script, with the table
of a library and the absence of its lists. A plain script that was read is written with the bytes it
was read from up to the end of the last section, before a reserved word. -/
theorem binary_round_trip :
    (∀ s : Script, s.version ≤ formatVersion
        → (∀ x ∈ s.sections, x.kind ∈ [SectionKind.field, .var, .function])
        → (∀ t ∈ s.library?, t.Storable)
        → ∃ bytes, s.encode = .ok bytes ∧ (bytes.length < 2 ^ 63 → decode bytes = .ok s))
      ∧ ∀ (data : Text) (s : Script), decode data = .ok s → s.library? = none
        → s.sectionsEnd + 8 ≤ data.length
          ∧ s.encode = .ok (data.take s.sectionsEnd ++ Text.littleEndian 8 0) :=
  -- nothing but the reading back of the table depends on its form
  round_trip_in ExportTable.faithful_concise

/-- A library with an export that is not plain ASCII, no list of dependencies and two sections. -/
def greetingLibrary : Script where
  sections := [⟨.field, -1, [5, 0]⟩, ⟨.function, 7, []⟩]
  library? := some { exports? := some [⟨"grüß", 7, .function⟩], dependencies? := none }

/-- The bytes of a script with one empty section, and more behind them. -/
def reservedBinary : Text :=
  [0x42, 0x47, 0x53, 0x4C, 1, 0, 0, 0, 1, 0, 0, 0, 0, 0, 0, 0, 2, 9, 0, 0, 0, 0, 0, 0, 0,
    0, 0, 0, 0, 0, 0, 0, 0, 7, 7, 7, 7, 7, 7, 7, 7, 0xFF]

theorem greetingLibrary_round_trip :
    (∃ bytes, greetingLibrary.encode = .ok bytes
        ∧ (bytes.length < 2 ^ 63 → decode bytes = .ok greetingLibrary))
      ∧ decode reservedBinary = .ok ⟨1, [⟨.var, 9, []⟩], none⟩
      ∧ (⟨1, [⟨.var, 9, []⟩], none⟩ : Script).encode
        = .ok (reservedBinary.take 33 ++ Text.littleEndian 8 0) := by
  have hread : decode reservedBinary = .ok ⟨1, [⟨.var, 9, []⟩], none⟩ := by
    simp [reservedBinary, decode, decodeIn, decodeSections, Text.ofLittleEndian, SectionKind.isKnown]
    rfl
  refine ⟨binary_round_trip.1 greetingLibrary (by decide) (by decide) ?_, hread,
    (binary_round_trip.2 _ _ hread rfl).2⟩
  rintro t ⟨⟩
  exact ⟨by decide +kernel, by decide, by decide, by decide⟩

end Script

end TickScript
