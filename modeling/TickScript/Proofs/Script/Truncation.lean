import TickScript.Proofs.Script.Bounds

/-!
# A binary that is cut is refused

The bytes of a script determine where they end. Every section tells its own length, so sections of
the same number in front of something can be told apart from what follows in one way only
(`sections_append_inj`); behind them a script has one word, and a library has the length of its table.
A reader that is content with the front of a binary has therefore read all of it.

The argument needs no positions. Suppose a reader accepts the front of a binary. Then it has read as
many sections as the header says, and these are the sections that were written, as they can be told
apart from what follows; so only the end is left, where a script has its last word and a library the
length of its table, and a front that is not the whole lacks a part of it.
-/

namespace TickScript.Script

/-! ## Where the bytes of sections end -/

/-- A section that is written has a known kind. -/
theorem encodeSection_inv {s : Section} {bytes : Text} (h : encodeSection s = .ok bytes) :
    bytes = sectionBytes s := by
  unfold encodeSection at h
  split at h
  · cases h
  · exact (Except.ok.inj h).symm

/-- What is written for sections are their bytes one behind the other. -/
theorem mapM_encodeSection_inv {sections : List Section} {parts : List Text}
    (h : sections.mapM encodeSection = .ok parts) : parts = sections.map sectionBytes := by
  induction sections generalizing parts with
  | nil => exact (Except.ok.inj h).symm
  | cons s sections ih =>
      rw [List.mapM_cons] at h
      cases hs : encodeSection s with
      | error e =>
          rw [hs] at h
          cases h
      | ok bytes =>
          cases hmore : sections.mapM encodeSection with
          | error e =>
              rw [hs, hmore] at h
              cases h
          | ok more =>
              rw [hs, hmore] at h
              cases h
              rw [List.map_cons, encodeSection_inv hs, ih hmore]

/-- The bytes of a script that is written. -/
theorem encodeIn_inv {format : ExportTable.Format} {s : Script} {bytes : Text}
    (h : s.encodeIn format = .ok bytes) :
    bytes = s.headerBytes ++ (s.sections.map sectionBytes).flatten ++ s.trailerBytes format := by
  unfold encodeIn at h
  cases hsections : s.sections.mapM encodeSection with
  | error e =>
      rw [hsections] at h
      cases h
  | ok parts =>
      rw [hsections] at h
      cases h
      rw [mapM_encodeSection_inv hsections]
      rfl

/-- The length of a section stands in front of its data. -/
theorem section_append_inj {a b : Section} {x y : Text} (ha : a.data.length < 2 ^ 64)
    (hb : b.data.length < 2 ^ 64) (h : sectionBytes a ++ x = sectionBytes b ++ y) : x = y := by
  have hword (s : Section) (rest : Text) :
      ((sectionBytes s ++ rest).drop 9).take 8 = Text.littleEndian 8 s.data.length := by
    rw [sectionBytes, List.append_assoc, List.append_assoc,
      List.drop_left' (show (s.kind.tag :: Text.littleEndian 8 s.id.toUInt64.toNat).length = 9 by simp)]
    exact List.take_left' (Text.length_littleEndian 8 _)
  have hsize : a.data.length = b.data.length := by
    rw [← word_ofLittleEndian ha, ← hword a x, h, hword b y, word_ofLittleEndian hb]
  have hlength : (sectionBytes a).length = (sectionBytes b).length := by
    rw [length_sectionBytes, length_sectionBytes, hsize]
  exact (List.append_inj h hlength).2

/-- As many sections take the same bytes off the front. -/
theorem sections_append_inj {a b : List Section} {x y : Text} (hlength : a.length = b.length)
    (ha : ∀ s ∈ a, s.data.length < 2 ^ 64) (hb : ∀ s ∈ b, s.data.length < 2 ^ 64)
    (h : (a.map sectionBytes).flatten ++ x = (b.map sectionBytes).flatten ++ y) : x = y := by
  induction a generalizing b with
  | nil =>
      obtain rfl := List.length_eq_zero_iff.1 hlength.symm
      exact h
  | cons s a ih =>
      cases b with
      | nil => cases hlength
      | cons t b =>
          rw [List.forall_mem_cons] at ha hb
          simp only [List.map_cons, List.flatten_cons, List.append_assoc] at h
          exact ih (Nat.succ.inj hlength) ha.2 hb.2 (section_append_inj ha.1 hb.1 h)

/-! ## Where a binary ends -/

/-- Bytes behind sections that a reader is content with are all that a writer has put there. -/
theorem eq_nil_of_trailer {format : ExportTable.Format} {s : Script} {magic tail more : Text}
    (hmagic : magic = if s.library?.isSome then libraryMagic else scriptMagic)
    (hsize : (s.trailerBytes format).length < 2 ^ 63) (htail : tail ++ more = s.trailerBytes format)
    (hroom : ¬tail.length < 8)
    (htable : magic ≠ scriptMagic →
      ¬(tail.drop 8).length < Text.ofLittleEndian (tail.take 8)) : more = [] := by
  have hlength := congrArg List.length htail
  rw [List.length_append] at hlength
  apply List.eq_nil_of_length_eq_zero
  obtain ⟨version, sections, library?⟩ := s
  cases library? with
  | none =>
      simp only [trailerBytes, Text.length_littleEndian] at hlength
      omega
  | some table =>
      simp only [trailerBytes, List.length_append, Text.length_littleEndian] at hlength hsize htail
      have hother : magic ≠ scriptMagic := by
        rw [hmagic]
        exact show libraryMagic ≠ scriptMagic by decide
      have hword : tail.take 8 = Text.littleEndian 8 (format.write table).length := by
        have htake := congrArg (List.take 8) htail
        rwa [List.take_append_of_le_length (by omega),
          List.take_left' (Text.length_littleEndian 8 _)] at htake
      have hfits := htable hother
      rw [hword, word_ofLittleEndian (by omega), List.length_drop] at hfits
      omega

/-- The front of a binary is no binary, unless it is all of it. -/
theorem eq_nil_of_decode_front {format : ExportTable.Format} {s : Script} {front more : Text}
    (hbytes : front ++ more
      = s.headerBytes ++ (s.sections.map sectionBytes).flatten ++ s.trailerBytes format)
    (hsize : (front ++ more).length < 2 ^ 63) {found : Script} (h : decodeIn format front = .ok found) :
    more = [] := by
  by_cases hshort : front.length < 16
  · simp only [decodeIn, if_pos hshort] at h
    cases h
  -- sixteen bytes are there, and they are magic, version and count
  obtain ⟨magic, version, count, body, rfl, hmagic, hversion, hcount⟩ := header_of_length hshort
  rw [decodeIn_header format hmagic hversion hcount] at h
  split at h
  · cases h
  split at h
  · cases h
  -- the header is whole, so it is the one that was written
  rw [headerBytes, List.append_assoc _ body, List.append_assoc _ _ (s.trailerBytes _)] at hbytes
  obtain ⟨hheader, hbody⟩ := List.append_inj hbytes
    (by
      rw [← headerBytes, length_headerBytes]
      simp [hmagic, hversion, hcount])
  obtain ⟨hfront, hwritten⟩ := List.append_inj' hheader
    (by rw [hcount, Text.length_littleEndian])
  obtain ⟨hmark, -⟩ := List.append_inj' hfront (by rw [hversion, Text.length_littleEndian])
  have hflat := congrArg List.length hbody
  simp only [List.length_append] at hflat hsize
  -- so the count is the number of sections that were written
  have hnumber : Text.ofLittleEndian count = s.sections.length := by
    have hle := count_le_flatten_sectionBytes s.sections
    rw [hwritten, word_ofLittleEndian (by omega)]
  rw [hnumber] at h
  cases hsections : decodeSections 0 16 s.sections.length body with
  | error e =>
      rw [hsections] at h
      cases h
  | ok result =>
      obtain ⟨sections, stop, tail⟩ := result
      rw [hsections] at h
      obtain ⟨htaken, hlength, -⟩ := eq_of_decodeSections hsections
      have htakenLength := congrArg List.length htaken
      rw [List.length_append] at htakenLength
      rw [htaken, List.append_assoc] at hbody
      -- the sections read are those written, and what is cut off can only be of the trailer
      have htail : tail ++ more = s.trailerBytes format := by
        refine sections_append_inj hlength ?_ ?_ hbody
        · intro x hx
          have hle := length_le_flatten_sectionBytes hx
          omega
        · intro x hx
          have hle := length_le_flatten_sectionBytes hx
          omega
      simp only [Except.bind] at h
      split at h
      · cases h
      next hroom =>
        refine eq_nil_of_trailer hmark (by omega) htail hroom ?_
        intro hother hcut
        rw [if_neg hother, if_pos hcut] at h
        cases h

/-- Reading is safe for all bytes and refuses what is cut. Over positions that are words it never
touches a byte outside, whatever number of sections and whatever lengths the bytes claim, and it looks
at no more headers than the bytes have room for, and one; its outcome is that of `decode`. And no
proper front of a binary that was written is read. -/
theorem decode_safe_and_whole :
    (∀ data : Text, data.length + 17 < 2 ^ 63 →
      (Bounded.read data).2 = (decode data).mapError .refused
        ∧ (Bounded.read data).2 ≠ .error .fault ∧ (Bounded.read data).1 ≤ data.length / 17 + 1)
    ∧ ∀ (s : Script) (bytes : Text), s.encode = .ok bytes → bytes.length < 2 ^ 63 →
      ∀ front, front <+: bytes → front ≠ bytes → ∃ e, decode front = .error e := by
  constructor
  · intro data hdata
    obtain ⟨hsame, hbound⟩ := Bounded.read_eq hdata
    refine ⟨hsame, ?_, hbound⟩
    rw [hsame]
    cases decode data with
    | error e =>
        rintro ⟨⟩
    | ok found =>
        rintro ⟨⟩
  · rintro s bytes hencode hsize front ⟨more, rfl⟩ hproper
    cases hfront : decode front with
    | error e => exact ⟨e, rfl⟩
    | ok found =>
        obtain rfl := eq_nil_of_decode_front (encodeIn_inv hencode) hsize hfront
        exact absurd (List.append_nil front).symm hproper

/-- The front of a script that claims as many sections as a word can say, the first of them with as
many bytes. -/
def boast : Text :=
  [0x42, 0x47, 0x53, 0x4C, 1, 0, 0, 0, 255, 255, 255, 255, 255, 255, 255, 255, 2,
    9, 0, 0, 0, 0, 0, 0, 0, 255, 255, 255, 255, 255, 255, 255, 255, 7]

/-- A library with one export and one section. -/
def single : Script where
  sections := [⟨.var, 7, [5, 0]⟩]
  library? := some { exports? := some [⟨"x", 7, .var⟩], dependencies? := none }

theorem boast_refused_single_whole :
    (boast.length + 17 < 2 ^ 63
      ∧ (Bounded.read boast).2 = (decode boast).mapError .refused
      ∧ (Bounded.read boast).2 ≠ .error .fault ∧ (Bounded.read boast).1 ≤ boast.length / 17 + 1)
    ∧ ∃ bytes, single.encode = .ok bytes ∧ bytes.length < 2 ^ 63
      ∧ ∀ front, front <+: bytes → front ≠ bytes → ∃ e, decode front = .error e := by
  have hroom : boast.length + 17 < 2 ^ 63 := by decide
  refine ⟨⟨hroom, decode_safe_and_whole.1 boast hroom⟩, ?_⟩
  have hencode : single.encode = _ := encodeIn_eq ExportTable.concise (by decide)
  have hsize : (single.headerBytes ++ (single.sections.map sectionBytes).flatten
      ++ single.trailerBytes ExportTable.concise).length < 2 ^ 63 := by decide
  exact ⟨_, hencode, hsize, decode_safe_and_whole.2 single _ hencode hsize⟩

end TickScript.Script
