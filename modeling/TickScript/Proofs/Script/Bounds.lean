import TickScript.Proofs.Script.Binary

/-!
# Reading a binary stays inside its bytes

The reader of binaries takes what it reads off the front of a list, so it has no positions that could
be wrong. Here is the same reader over positions that are machine words: sums wrap, every access says
what it touches, and an access outside the bytes is a fault of its own (`Stop.fault`). The counts and
lengths that it reads are any 64-bit words. It refuses the same bytes for the same reasons and finds
the same script (`read_eq`), hence it never faults, and each section that it goes on from has taken
seventeen bytes at least, which bounds the headers that it looks at.

The reader is written a second time because the first one cannot go wrong: with a list there is no
position and no sum to wrap. The second one has everything that can go wrong as an outcome, and the
equality of the two says that none of these outcomes occurs. Each step of it compares a position
with the number of bytes before it reads, and those comparisons are shown to be exact although they
are made with wrapping sums (`lacks_eq`).
-/

namespace TickScript.Script.Bounded

/-- Why reading stops without a script. -/
inductive Stop where
  | refused (error : BinaryError)
  /-- An access outside the bytes. -/
  | fault
deriving DecidableEq, Repr

/-! ## Access by position -/

section

variable (data : Text)

/-- The number of bytes, as a position. -/
def length : Int64 := Int64.ofNat data.length

/-- The bytes between two positions. -/
def slice (start stop : Int64) : Except Stop Text :=
  if 0 ≤ start ∧ start ≤ stop ∧ stop ≤ length data then
    .ok ((data.drop start.toInt.toNat).take (stop.toInt - start.toInt).toNat)
  else .error .fault

/-- The byte at a position. -/
def byteAt (position : Int64) : Except Stop UInt8 :=
  if 0 ≤ position ∧ position < length data then .ok (data.getD position.toInt.toNat 0)
  else .error .fault

/-- The word at a position: the bytes behind the position, of which there must be eight. -/
def wordAt (position : Int64) : Except Stop UInt64 := do
  let behind ← slice data position (length data)
  if behind.length < 8 then throw .fault
  return UInt64.ofNat (Text.ofLittleEndian (behind.take 8))

/-- Whether more bytes are asked for than stand behind a position. -/
def lacks (position : Int64) (size : UInt64) : Bool :=
  (length data - position).toUInt64 < size

/-! ## The reader -/

/-- The section at a position, and where the next one starts. -/
def readSection (index : Nat) (position : Int64) : Except Stop (Section × Int64) := do
  if length data < position + 17 then throw (.refused (.cutHeader index position.toInt.toNat))
  let tag ← byteAt data position
  if !(SectionKind.mk tag).isKnown then throw (.refused (.badKind index tag))
  let id ← wordAt data (position + 1)
  let size ← wordAt data (position + 9)
  let start := position + 17
  if lacks data start size then
    throw (.refused (.cutSection index size.toNat start.toInt.toNat))
  let body ← slice data start (start + size.toInt64)
  return (⟨⟨tag⟩, id.toInt64, body⟩, start + size.toInt64)

/-- The sections from a position on, with the number of headers that are looked at. -/
def readSections : (count index : Nat) → (position : Int64) →
    Nat × Except Stop (List Section × Int64)
  | 0, _, position => (0, .ok ([], position))
  | count + 1, index, position =>
    match readSection data index position with
    | .error e => (1, .error e)
    | .ok (s, next) =>
      let more := readSections count (index + 1) next
      (more.1 + 1, more.2.map fun found => (s :: found.1, found.2))

/-- The magic word, the version and the claimed number of sections. -/
def readHeader : Except Stop (Text × UInt32 × UInt64) := do
  if length data < 16 then throw (.refused (.tooShort data.length))
  let magic ← slice data 0 4
  if magic != scriptMagic && magic != libraryMagic then throw (.refused (.badMagic magic))
  let version := UInt32.ofNat (Text.ofLittleEndian (← slice data 4 8))
  if formatVersion < version then throw (.refused (.tooNew version))
  let count ← slice data 8 16
  return (magic, version, UInt64.ofNat (Text.ofLittleEndian count))

/-- What stands behind the sections: nothing that matters, or the table of a library. -/
def readTrailer (magic : Text) (position : Int64) : Except Stop (Option ExportTable) := do
  if length data < position + 8 then throw (.refused (.cutTrailer position.toInt.toNat))
  let size ← wordAt data position
  let start := position + 8
  if magic == scriptMagic then return none
  if lacks data start size then throw (.refused (.cutTable size.toNat))
  match ExportTable.decode (← slice data start (start + size.toInt64)) with
  | some table => return some table
  | none => throw (.refused .badTable)

/-- The script in some bytes, with the number of section headers that are looked at. -/
def read : Nat × Except Stop Script :=
  match readHeader data with
  | .error e => (0, .error e)
  | .ok (magic, version, count) =>
    let sections := readSections data count.toNat 0 16
    (sections.1, do
      let (found, position) ← sections.2
      return ⟨version, found, ← readTrailer data magic position⟩)

end

/-! ## Positions that are no larger than the bytes -/

section

variable {data : Text}

/-- Positions within the positive range are not changed by the word. -/
theorem toInt_ofNat {n : Nat} (h : n < 2 ^ 63) : (Int64.ofNat n).toInt = n :=
  Int64.toInt_ofNat_of_lt h

theorem ofNat_le_iff {a b : Nat} (ha : a < 2 ^ 63) (hb : b < 2 ^ 63) :
    Int64.ofNat a ≤ Int64.ofNat b ↔ a ≤ b := by
  rw [Int64.le_iff_toInt_le, toInt_ofNat ha, toInt_ofNat hb, Int.ofNat_le]

theorem ofNat_lt_iff {a b : Nat} (ha : a < 2 ^ 63) (hb : b < 2 ^ 63) :
    Int64.ofNat a < Int64.ofNat b ↔ a < b := by
  rw [Int64.lt_iff_toInt_lt, toInt_ofNat ha, toInt_ofNat hb, Int.ofNat_lt]

/-- A slice between two positions inside the bytes. -/
theorem slice_eq (hdata : data.length < 2 ^ 63) {start stop : Nat} (hle : start ≤ stop)
    (hstop : stop ≤ data.length) :
    slice data (Int64.ofNat start) (Int64.ofNat stop)
      = .ok ((data.drop start).take (stop - start)) := by
  have hstart : start < 2 ^ 63 := by omega
  have hend : stop < 2 ^ 63 := by omega
  have hzero : (0 : Int64) ≤ Int64.ofNat start :=
    (ofNat_le_iff (by decide) hstart).2 (Nat.zero_le start)
  rw [slice, if_pos ⟨hzero, (ofNat_le_iff hstart hend).2 hle,
    (ofNat_le_iff hend hdata).2 hstop⟩, toInt_ofNat hstart, toInt_ofNat hend]
  congr 2
  omega

/-- The byte that stands behind `start` bytes. -/
theorem byteAt_eq (hdata : data.length < 2 ^ 63) {start : Nat} {tag : UInt8} {rest : Text}
    (hbytes : data.drop start = tag :: rest) :
    byteAt data (Int64.ofNat start) = .ok tag := by
  have hlt : start < data.length := by
    have hlength := congrArg List.length hbytes
    rw [List.length_drop, List.length_cons] at hlength
    omega
  have hstart : start < 2 ^ 63 := by omega
  have hzero : (0 : Int64) ≤ Int64.ofNat start :=
    (ofNat_le_iff (by decide) hstart).2 (Nat.zero_le start)
  have hget : data.getD start 0 = tag := by
    rw [List.getD_eq_getElem?_getD, ← Nat.add_zero start, ← List.getElem?_drop, hbytes]
    rfl
  rw [byteAt, if_pos ⟨hzero, (ofNat_lt_iff hstart hdata).2 hlt⟩, toInt_ofNat hstart,
    Int.toNat_natCast, hget]

/-- The word whose bytes stand behind `start` bytes. -/
theorem wordAt_eq (hdata : data.length < 2 ^ 63) {start : Nat} {word rest : Text}
    (hbytes : data.drop start = word ++ rest) (hword : word.length = 8) :
    wordAt data (Int64.ofNat start) = .ok (UInt64.ofNat (Text.ofLittleEndian word)) := by
  have hlength := congrArg List.length hbytes
  rw [List.length_drop, List.length_append] at hlength
  have hslice : slice data (Int64.ofNat start) (Int64.ofNat data.length) = _ :=
    slice_eq hdata (by omega) (Nat.le_refl _)
  have hall : (data.drop start).take (data.length - start) = word ++ rest := by
    rw [hbytes]
    apply List.take_of_length_le
    rw [List.length_append]
    omega
  rw [hall] at hslice
  have hlong : ¬(word ++ rest).length < 8 := by
    rw [List.length_append]
    omega
  simp only [wordAt, length, hslice, bind, Except.bind, if_neg hlong, List.take_left' hword]
  rfl

/-- What is lacking behind a position inside the bytes. -/
theorem lacks_eq (hdata : data.length < 2 ^ 63) {start : Nat} (hstart : start ≤ data.length)
    (size : UInt64) :
    lacks data (Int64.ofNat start) size = decide (data.length - start < size.toNat) := by
  have hword : (UInt64.ofNat (data.length - start)).toNat = data.length - start :=
    UInt64.toNat_ofNat_of_lt' (show data.length - start < 2 ^ 64 by omega)
  rw [lacks, length, ← Int64.ofNat_sub _ _ hstart, Int64.toUInt64_ofNat']
  simp only [UInt64.lt_iff_toNat_lt, hword]

/-! ## The same reader -/

/-- A word that was read is the number that its bytes spell. -/
theorem toNat_word {word : Text} (h : word.length = 8) :
    (UInt64.ofNat (Text.ofLittleEndian word)).toNat = Text.ofLittleEndian word := by
  have hlt := Text.ofLittleEndian_lt word
  rw [h] at hlt
  exact UInt64.toNat_ofNat_of_lt' hlt

/-- With less than a section's head left the reader complains. -/
theorem readSection_short (hdata : data.length + 17 < 2 ^ 63) (index : Nat) {position : Nat}
    (hposition : position ≤ data.length) (hshort : (data.drop position).length < 17) :
    readSection data index (Int64.ofNat position)
      = .error (.refused (.cutHeader index position)) := by
  rw [List.length_drop] at hshort
  have hcut : length data < Int64.ofNat position + 17 := by
    show length data < Int64.ofNat position + Int64.ofNat 17
    rw [← Int64.ofNat_add]
    exact (ofNat_lt_iff (by omega) (by omega)).2 (by omega)
  simp only [readSection, if_pos hcut, toInt_ofNat (show position < 2 ^ 63 by omega),
    Int.toNat_natCast]
  rfl

/-- Otherwise it reads the head and asks for as many bytes as the size says. -/
theorem readSection_header (hdata : data.length + 17 < 2 ^ 63) (index : Nat) {position : Nat}
    {tag : UInt8} {id size rest : Text} (hbytes : data.drop position = tag :: id ++ size ++ rest)
    (hid : id.length = 8) (hsize : size.length = 8) :
    readSection data index (Int64.ofNat position)
      = if !(SectionKind.mk tag).isKnown then .error (.refused (.badKind index tag))
        else if rest.length < Text.ofLittleEndian size then
          .error (.refused (.cutSection index (Text.ofLittleEndian size) (position + 17)))
        else .ok (⟨⟨tag⟩, (UInt64.ofNat (Text.ofLittleEndian id)).toInt64,
            rest.take (Text.ofLittleEndian size)⟩,
          Int64.ofNat (position + 17 + Text.ofLittleEndian size)) := by
  have hlength := congrArg List.length hbytes
  simp only [List.length_drop, List.length_append, List.length_cons, hid, hsize] at hlength
  have hsmall : data.length < 2 ^ 63 := by omega
  -- there is room for a head, in machine words too
  have hroom : ¬length data < Int64.ofNat position + 17 := by
    show ¬length data < Int64.ofNat position + Int64.ofNat 17
    rw [← Int64.ofNat_add, length, ofNat_lt_iff hsmall (by omega)]
    omega
  have htag : byteAt data (Int64.ofNat position) = .ok tag := byteAt_eq hsmall hbytes
  -- the tag, the id and the size are read where they stand
  have hidWord : wordAt data (Int64.ofNat position + 1)
      = .ok (UInt64.ofNat (Text.ofLittleEndian id)) := by
    show wordAt data (Int64.ofNat position + Int64.ofNat 1) = _
    have hbehind : data.drop (position + 1) = id ++ (size ++ rest) := by
      rw [← List.drop_drop, hbytes]
      simp
    rw [← Int64.ofNat_add, wordAt_eq hsmall hbehind hid]
  have hsizeWord : wordAt data (Int64.ofNat position + 9)
      = .ok (UInt64.ofNat (Text.ofLittleEndian size)) := by
    show wordAt data (Int64.ofNat position + Int64.ofNat 9) = _
    have hbehind : data.drop (position + 9) = size ++ rest := by
      rw [← List.drop_drop, hbytes, List.append_assoc]
      exact List.drop_left' (show (tag :: id).length = 9 by simp [hid])
    rw [← Int64.ofNat_add, wordAt_eq hsmall hbehind hsize]
  have hstart : Int64.ofNat position + 17 = Int64.ofNat (position + 17) :=
    (Int64.ofNat_add position 17).symm
  rw [hstart] at hroom
  have hrest : data.drop (position + 17) = rest := by
    rw [← List.drop_drop, hbytes]
    exact List.drop_left' (show (tag :: id ++ size).length = 17 by simp [hid, hsize])
  have hbehind : data.length - (position + 17) = rest.length := by rw [← hrest, List.length_drop]
  -- whether the data are all there is the same question on both sides
  have hlacks := lacks_eq hsmall (show position + 17 ≤ data.length by omega)
    (UInt64.ofNat (Text.ofLittleEndian size))
  rw [toNat_word hsize, hbehind] at hlacks
  simp only [readSection, if_neg hroom, htag, hidWord, hsizeWord, hstart, hlacks, toNat_word hsize,
    toInt_ofNat (show position + 17 < 2 ^ 63 by omega), Int.toNat_natCast, UInt64.toInt64_ofNat',
    bind, Except.bind, pure, Except.pure, throw, throwThe, MonadExceptOf.throw, decide_eq_true_eq]
  split
  · rfl
  · split
    · rfl
    · next hfits =>
        rw [← Int64.ofNat_add, slice_eq hsmall (Nat.le_add_right _ _) (by omega), hrest,
          Nat.add_sub_cancel_left]

/-- The sections are those of the reader of lists, and every header but the last one that is looked
at takes its bytes. -/
theorem readSections_eq (hdata : data.length + 17 < 2 ^ 63) (count index : Nat) {position : Nat}
    (hposition : position ≤ data.length) :
    (readSections data count index (Int64.ofNat position)).2
        = ((decodeSections index position count (data.drop position)).mapError Stop.refused).map
          (fun found => (found.1, Int64.ofNat found.2.1))
      ∧ (∀ sections stop tail,
        decodeSections index position count (data.drop position) = .ok (sections, stop, tail) →
          stop ≤ data.length ∧ tail = data.drop stop)
      ∧ 17 * (readSections data count index (Int64.ofNat position)).1
        ≤ data.length - position + 17 := by
  -- the sections are read one after another; each starts where the one before it stopped
  induction count generalizing index position with
  | zero =>
      rw [decodeSections, if_pos rfl]
      refine ⟨rfl, ?_, by simp [readSections]⟩
      rintro sections stop tail ⟨⟩
      exact ⟨hposition, rfl⟩
  | succ count ih =>
      obtain ⟨tag, id, size, rest, hbytes, hid, hsize⟩ | hshort := header_or_short (data.drop position)
      · have hsection := readSection_header hdata index hbytes hid hsize
        have hlength := congrArg List.length hbytes
        simp only [List.length_drop, List.length_append, List.length_cons, hid, hsize] at hlength
        have hlist := decodeSections_header hid hsize tag index position count rest
        rw [← hbytes] at hlist
        by_cases hknown : (!(SectionKind.mk tag).isKnown) = true
        · -- the tag is none of the known ones: both readers refuse
          rw [if_pos hknown] at hsection hlist
          rw [readSections, hsection, hlist]
          exact ⟨rfl, by rintro _ _ _ ⟨⟩, Nat.le_add_left _ _⟩
        rw [if_neg hknown] at hsection hlist
        by_cases hfits : rest.length < Text.ofLittleEndian size
        · -- the section is longer than what is left: both readers refuse
          rw [if_pos hfits] at hsection hlist
          rw [readSections, hsection, hlist]
          exact ⟨rfl, by rintro _ _ _ ⟨⟩, Nat.le_add_left _ _⟩
        rw [if_neg hfits] at hsection hlist
        -- the next header stands behind the data of this section
        have hnext : rest.drop (Text.ofLittleEndian size)
            = data.drop (position + 17 + Text.ofLittleEndian size) := by
          rw [← List.drop_drop, ← List.drop_drop, hbytes, List.drop_left'
            (show (tag :: id ++ size).length = 17 by simp [hid, hsize])]
        -- the rest is as short as the list that is left, which pays for this section's header
        obtain ⟨hsame, hplace, hcount⟩ := ih (index + 1)
          (show position + 17 + Text.ofLittleEndian size ≤ data.length by omega)
        rw [hnext] at hlist
        rw [readSections, hsection, hlist]
        refine ⟨?_, ?_, ?_⟩
        · simp only [hsame]
          cases decodeSections (index + 1) (position + 17 + Text.ofLittleEndian size) count
            (data.drop (position + 17 + Text.ofLittleEndian size)) <;> rfl
        · intro sections stop tail h
          cases hmore : decodeSections (index + 1) (position + 17 + Text.ofLittleEndian size)
            count (data.drop (position + 17 + Text.ofLittleEndian size)) with
          | error e =>
              rw [hmore] at h
              cases h
          | ok found =>
              obtain ⟨more, stop', tail'⟩ := found
              rw [hmore] at h
              cases h
              exact hplace more _ _ hmore
        · simp only
          omega
      · -- there is not even room for a header
        have hcut : (data.drop position).length < 17 := by
          rw [List.length_take] at hshort
          omega
        rw [readSections, readSection_short hdata index hposition hcut, decodeSections,
          if_neg (Nat.succ_ne_zero count), if_pos hshort]
        exact ⟨rfl, by rintro _ _ _ ⟨⟩, Nat.le_add_left _ _⟩

/-! ## Whole binaries -/

/-- What stands behind sections that end inside the bytes. -/
theorem readTrailer_eq (hdata : data.length + 17 < 2 ^ 63) (magic : Text) {position : Nat}
    (hposition : position ≤ data.length) {rest : Text} (hrest : rest = data.drop position) :
    readTrailer data magic (Int64.ofNat position)
      = if rest.length < 8 then .error (.refused (.cutTrailer position))
        else if magic = scriptMagic then .ok none
        else if (rest.drop 8).length < Text.ofLittleEndian (rest.take 8) then
          .error (.refused (.cutTable (Text.ofLittleEndian (rest.take 8))))
        else match ExportTable.decode ((rest.drop 8).take (Text.ofLittleEndian (rest.take 8))) with
          | some table => .ok (some table)
          | none => .error (.refused .badTable) := by
  have hlength := congrArg List.length hrest
  rw [List.length_drop] at hlength
  have hsmall : data.length < 2 ^ 63 := by omega
  have hstart : Int64.ofNat position + 8 = Int64.ofNat (position + 8) :=
    (Int64.ofNat_add position 8).symm
  have hcut : length data < Int64.ofNat (position + 8) ↔ rest.length < 8 := by
    rw [length, ofNat_lt_iff hsmall (by omega)]
    omega
  -- less than a word is left
  by_cases hroom : rest.length < 8
  · simp only [readTrailer, hstart, if_pos (hcut.2 hroom), if_pos hroom,
      toInt_ofNat (show position < 2 ^ 63 by omega), Int.toNat_natCast]
    rfl
  have hword : (rest.take 8).length = 8 := by
    rw [List.length_take]
    omega
  -- the word is the length of the table
  have hsize : wordAt data (Int64.ofNat position)
      = .ok (UInt64.ofNat (Text.ofLittleEndian (rest.take 8))) := by
    have hsplit : data.drop position = rest.take 8 ++ rest.drop 8 := by
      rw [List.take_append_drop, hrest]
    exact wordAt_eq hsmall hsplit hword
  have hlacks := lacks_eq hsmall (show position + 8 ≤ data.length by omega)
    (UInt64.ofNat (Text.ofLittleEndian (rest.take 8)))
  have hbehind : data.length - (position + 8) = (rest.drop 8).length := by
    rw [List.length_drop]
    omega
  rw [toNat_word hword, hbehind] at hlacks
  have htail : data.drop (position + 8) = rest.drop 8 := by rw [hrest, List.drop_drop]
  simp only [readTrailer, hstart, if_neg (mt hcut.1 hroom), if_neg hroom, hsize, hlacks,
    toNat_word hword, UInt64.toInt64_ofNat', beq_iff_eq, bind, Except.bind, pure, Except.pure,
    throw, throwThe, MonadExceptOf.throw, decide_eq_true_eq]
  split
  · rfl
  · split
    · rfl
    · next hfits =>
        rw [← Int64.ofNat_add, slice_eq hsmall (Nat.le_add_right _ _) (by omega), htail,
          Nat.add_sub_cancel_left]

/-- The first sixteen bytes. -/
theorem readHeader_eq (hdata : data.length + 17 < 2 ^ 63) {magic version count body : Text}
    (hbytes : data = magic ++ version ++ count ++ body) (hmagic : magic.length = 4)
    (hversion : version.length = 4) (hcount : count.length = 8) :
    readHeader data
      = if magic ≠ scriptMagic ∧ magic ≠ libraryMagic then .error (.refused (.badMagic magic))
        else if formatVersion < UInt32.ofNat (Text.ofLittleEndian version) then
          .error (.refused (.tooNew (UInt32.ofNat (Text.ofLittleEndian version))))
        else .ok (magic, UInt32.ofNat (Text.ofLittleEndian version),
          UInt64.ofNat (Text.ofLittleEndian count)) := by
  have hlength := congrArg List.length hbytes
  simp only [List.length_append, hmagic, hversion, hcount] at hlength
  have hsmall : data.length < 2 ^ 63 := by omega
  have hroom : ¬length data < 16 := by
    show ¬Int64.ofNat data.length < Int64.ofNat 16
    rw [ofNat_lt_iff hsmall (by decide)]
    omega
  -- the three parts of the header, each at its position
  have hfirst : slice data 0 4 = .ok magic := by
    show slice data (Int64.ofNat 0) (Int64.ofNat 4) = _
    rw [slice_eq hsmall (by omega) (by omega), hbytes, List.append_assoc, List.append_assoc]
    exact congrArg Except.ok (List.take_left' hmagic)
  have hsecond : slice data 4 8 = .ok version := by
    show slice data (Int64.ofNat 4) (Int64.ofNat 8) = _
    rw [slice_eq hsmall (by omega) (by omega), hbytes, List.append_assoc, List.append_assoc,
      List.drop_left' hmagic]
    exact congrArg Except.ok (List.take_left' hversion)
  have hthird : slice data 8 16 = .ok count := by
    show slice data (Int64.ofNat 8) (Int64.ofNat 16) = _
    rw [slice_eq hsmall (by omega) (by omega), hbytes, List.append_assoc,
      List.drop_left' (show (magic ++ version).length = 8 by simp [hmagic, hversion])]
    exact congrArg Except.ok (List.take_left' hcount)
  simp only [readHeader, if_neg hroom, hfirst, hsecond, hthird, Bool.and_eq_true, bne_iff_ne, ne_eq,
    bind, Except.bind, pure, Except.pure, throw, throwThe, MonadExceptOf.throw]

/-- Reading by position finds what reading from the front finds, and looks at no more headers than
there is room for. -/
theorem read_eq (hdata : data.length + 17 < 2 ^ 63) :
    (read data).2 = (decode data).mapError Stop.refused
      ∧ (read data).1 ≤ data.length / 17 + 1 := by
  -- both readers refuse for the same reason, in the same order: too short, wrong magic, too new
  by_cases hshort : data.length < 16
  · have hcut : length data < 16 := (ofNat_lt_iff (by omega) (by decide)).2 hshort
    have hheader : readHeader data = .error (.refused (.tooShort data.length)) := by
      rw [readHeader, if_pos hcut]
      rfl
    rw [read, hheader, decode, decodeIn, if_pos hshort]
    exact ⟨rfl, Nat.zero_le _⟩
  obtain ⟨magic, version, count, body, hbytes, hmagic, hversion, hcount⟩ := header_of_length hshort
  have hlist := decodeIn_header ExportTable.concise hmagic hversion hcount body
  rw [← hbytes, ← decode] at hlist
  have hheader := readHeader_eq hdata hbytes hmagic hversion hcount
  by_cases hmark : magic ≠ scriptMagic ∧ magic ≠ libraryMagic
  · rw [if_pos hmark] at hlist hheader
    rw [read, hheader, hlist]
    exact ⟨rfl, Nat.zero_le _⟩
  rw [if_neg hmark] at hlist hheader
  by_cases hnew : formatVersion < UInt32.ofNat (Text.ofLittleEndian version)
  · rw [if_pos hnew] at hlist hheader
    rw [read, hheader, hlist]
    exact ⟨rfl, Nat.zero_le _⟩
  rw [if_neg hnew] at hlist hheader
  have hbody : body = data.drop 16 := by
    rw [hbytes]
    exact (List.drop_left' (by simp [hmagic, hversion, hcount])).symm
  -- the sections, with the bound on the headers that are looked at
  obtain ⟨hsame, hplace, hbound⟩ := readSections_eq hdata (Text.ofLittleEndian count) 0
    (show 16 ≤ data.length by omega)
  rw [← hbody] at hsame hplace
  rw [read, hheader, hlist]
  simp only [toNat_word hcount]
  have hsixteen : (16 : Int64) = Int64.ofNat 16 := rfl
  rw [hsixteen, hsame]
  refine ⟨?_, by omega⟩
  cases hsections : decodeSections 0 16 (Text.ofLittleEndian count) body with
  | error e => rfl
  | ok found =>
      obtain ⟨sections, stop, tail⟩ := found
      obtain ⟨hstop, htail⟩ := hplace sections stop tail hsections
      -- and what stands behind them
      have htrailer := readTrailer_eq hdata magic hstop htail
      have hfound : Except.mapError Stop.refused (.ok (sections, stop, tail))
          = .ok (sections, stop, tail) := rfl
      simp only [hfound, Except.map, bind, Except.bind, htrailer]
      by_cases hroom : tail.length < 8
      · simp only [if_pos hroom]
        rfl
      by_cases hscript : magic = scriptMagic
      · simp only [if_neg hroom, if_pos hscript]
        rfl
      by_cases hfits : (tail.drop 8).length < Text.ofLittleEndian (tail.take 8)
      · simp only [if_neg hroom, if_neg hscript, if_pos hfits]
        rfl
      · simp only [if_neg hroom, if_neg hscript, if_neg hfits, ExportTable.concise_read]
        cases ExportTable.decode ((tail.drop 8).take (Text.ofLittleEndian (tail.take 8))) <;> rfl

end

end TickScript.Script.Bounded
