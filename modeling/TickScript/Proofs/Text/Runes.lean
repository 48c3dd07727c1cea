import TickScript.Text.Quoted

/-!
# Well-formed sequences

The runes of a text are found by reading ahead from a first byte, with limits on the second byte that
depend on the first. `Encodes` is the same account from the side of the code points: it lists the
sequences of one to four bytes, and a reader that meets one of them takes exactly that sequence,
whatever stands behind it. Every text is the bytes of its runes, one behind the other.

What is not well formed is a rune as well, of a single byte, so texts need not be UTF-8 for most of
this. The lemmas on well-formed texts at the end are about those without such a byte. They are what
the formats ask for that take no other text: the export table and the lock file.
-/

namespace TickScript.Text

/-- A byte that continues a sequence. -/
def Continues (b : UInt8) : Prop := 0x80 ≤ b ∧ b ≤ 0xBF

/-- The well-formed sequences by their code points: none of them longer than the code point needs, no
surrogates, nothing beyond U+10FFFF. -/
inductive Encodes : Nat → Text → Prop
  /-- Seven bits in one byte. -/
  | one {a : UInt8} : a < 0x80 → Encodes a.toNat [a]
  /-- Eleven bits in two, without the overlong ones. -/
  | two {a b : UInt8} : 0xC2 ≤ a → a < 0xE0 → Continues b →
    Encodes (a.toNat % 32 * 64 + b.toNat % 64) [a, b]
  /-- Sixteen bits in three, without overlong ones and surrogates. -/
  | three {a b c : UInt8} : 0xE0 ≤ a → a < 0xF0 → Continues b → (a = 0xE0 → 0xA0 ≤ b) →
    (a = 0xED → b ≤ 0x9F) → Continues c →
    Encodes (a.toNat % 16 * 4096 + b.toNat % 64 * 64 + c.toNat % 64) [a, b, c]
  /-- Twenty-one bits in four, up to the last code point. -/
  | four {a b c d : UInt8} : 0xF0 ≤ a → a < 0xF5 → Continues b → (a = 0xF0 → 0x90 ≤ b) →
    (a = 0xF4 → b ≤ 0x8F) → Continues c → Continues d →
    Encodes (a.toNat % 8 * 262144 + b.toNat % 64 * 4096 + c.toNat % 64 * 64 + d.toNat % 64)
      [a, b, c, d]

/-! ## The reader and the sequences -/

theorem continues_inv {low high : UInt8} {b? : Option UInt8} (h : continues low high b? = true) :
    ∃ b, b? = some b ∧ low ≤ b ∧ b ≤ high := by
  cases b? with
  | none => cases h
  | some b => exact ⟨b, rfl, by simpa [continues] using h⟩

theorem continues_some {low high b : UInt8} (hlow : low ≤ b) (hhigh : b ≤ high) :
    continues low high (some b) = true := by
  simp [continues, hlow, hhigh]

/-- Raising the lower limit for one first byte. -/
theorem le_of_low {a first low b : UInt8} (h : (if a == first then low else 0x80) ≤ b)
    (hlow : 0x80 ≤ low) : 0x80 ≤ b ∧ (a = first → low ≤ b) := by
  by_cases hfirst : a = first
  · rw [if_pos (by simpa using hfirst)] at h
    exact ⟨UInt8.le_trans hlow h, fun _ => h⟩
  · rw [if_neg (by simpa using hfirst)] at h
    exact ⟨h, fun heq => absurd heq hfirst⟩

/-- Lowering the upper limit for one first byte. -/
theorem le_of_high {a first high b : UInt8} (h : b ≤ (if a == first then high else 0xBF))
    (hhigh : high ≤ 0xBF) : b ≤ 0xBF ∧ (a = first → b ≤ high) := by
  by_cases hfirst : a = first
  · rw [if_pos (by simpa using hfirst)] at h
    exact ⟨UInt8.le_trans h hhigh, fun _ => h⟩
  · rw [if_neg (by simpa using hfirst)] at h
    exact ⟨h, fun heq => absurd heq hfirst⟩

theorem low_le {a first low b : UInt8} (h : 0x80 ≤ b) (hfirst : a = first → low ≤ b) :
    (if a == first then low else 0x80) ≤ b := by
  split
  · next heq => exact hfirst (by simpa using heq)
  · exact h

theorem le_high {a first high b : UInt8} (h : b ≤ 0xBF) (hfirst : a = first → b ≤ high) :
    b ≤ (if a == first then high else 0xBF) := by
  split
  · next heq => exact hfirst (by simpa using heq)
  · exact h

theorem exists_cons_of_getElem? {t : Text} {b : UInt8} (h : t[0]? = some b) :
    ∃ more, t = b :: more := by
  cases t with
  | nil => cases h
  | cons c more =>
      obtain rfl : c = b := by simpa using h
      exact ⟨more, rfl⟩

/-- A reader that checks the bytes of a sequence and answers its code point has checked them. -/
theorem checked_of_ite {c : Prop} [Decidable c] {b : UInt8} {point point' length length' : Nat}
    (h : (if c then (Rune.scalar point', length') else (.stray b, 0)) = (.scalar point, length)) :
    c ∧ point' = point ∧ length' = length := by
  by_cases hc : c
  · rw [if_pos hc] at h
    obtain ⟨hpoint, hlength⟩ := Prod.mk.inj h
    exact ⟨hc, Rune.scalar.inj hpoint, hlength⟩
  · rw [if_neg hc] at h
    cases (Prod.mk.inj h).1

/-- The reader takes well-formed sequences only. -/
theorem encodes_of_firstRune {a : UInt8} {rest : Text} {point length : Nat}
    (h : firstRune a rest = (.scalar point, length)) :
    ∃ more tail, rest = more ++ tail ∧ more.length = length ∧ Encodes point (a :: more) := by
  unfold firstRune at h
  simp only at h
  -- the first byte decides how long the sequence is, in the order in which the reader asks
  by_cases hone : a < 0x80
  · rw [if_pos hone] at h
    obtain ⟨hpoint, rfl⟩ := Prod.mk.inj h
    obtain rfl := Rune.scalar.inj hpoint
    exact ⟨[], rest, rfl, rfl, .one hone⟩
  rw [if_neg hone] at h
  -- a byte that continues a sequence, or starts one that is too long for its code point
  by_cases hstray : a < 0xC2
  · rw [if_pos hstray] at h
    cases (Prod.mk.inj h).1
  rw [if_neg hstray] at h
  by_cases htwo : a < 0xE0
  · rw [if_pos htwo] at h
    obtain ⟨hbytes, rfl, rfl⟩ := checked_of_ite h
    obtain ⟨b, hb, hlow, hhigh⟩ := continues_inv hbytes
    obtain ⟨tail, rfl⟩ := exists_cons_of_getElem? hb
    exact ⟨[b], tail, rfl, rfl, .two (UInt8.not_lt.1 hstray) htwo ⟨hlow, hhigh⟩⟩
  rw [if_neg htwo] at h
  by_cases hthree : a < 0xF0
  · -- of three bytes; the limits on the second one depend on the first
    rw [if_pos hthree] at h
    obtain ⟨hbytes, rfl, rfl⟩ := checked_of_ite h
    rw [Bool.and_eq_true] at hbytes
    obtain ⟨b, hb, hlow, hhigh⟩ := continues_inv hbytes.1
    obtain ⟨more, rfl⟩ := exists_cons_of_getElem? hb
    obtain ⟨c, hc, hthird⟩ := continues_inv hbytes.2
    obtain ⟨tail, rfl⟩ := exists_cons_of_getElem? (t := more) (by simpa using hc)
    obtain ⟨hlow, hfirst⟩ := le_of_low hlow (by decide)
    obtain ⟨hhigh, hlast⟩ := le_of_high hhigh (by decide)
    exact ⟨[b, c], tail, rfl, rfl,
      .three (UInt8.not_lt.1 htwo) hthree ⟨hlow, hhigh⟩ hfirst hlast hthird⟩
  rw [if_neg hthree] at h
  by_cases hfour : a < 0xF5
  · -- of four bytes; again the first one narrows the second
    rw [if_pos hfour] at h
    obtain ⟨hbytes, rfl, rfl⟩ := checked_of_ite h
    rw [Bool.and_eq_true, Bool.and_eq_true] at hbytes
    obtain ⟨b, hb, hlow, hhigh⟩ := continues_inv hbytes.1.1
    obtain ⟨more, rfl⟩ := exists_cons_of_getElem? hb
    obtain ⟨c, hc, hthird⟩ := continues_inv hbytes.1.2
    obtain ⟨more, rfl⟩ := exists_cons_of_getElem? (t := more) (by simpa using hc)
    obtain ⟨d, hd, hfourth⟩ := continues_inv hbytes.2
    obtain ⟨tail, rfl⟩ := exists_cons_of_getElem? (t := more) (by simpa using hd)
    obtain ⟨hlow, hfirst⟩ := le_of_low hlow (by decide)
    obtain ⟨hhigh, hlast⟩ := le_of_high hhigh (by decide)
    exact ⟨[b, c, d], tail, rfl, rfl,
      .four (UInt8.not_lt.1 hthree) hfour ⟨hlow, hhigh⟩ hfirst hlast hthird hfourth⟩
  -- no sequence starts with a greater byte
  rw [if_neg hfour] at h
  cases (Prod.mk.inj h).1

/-- The reader takes a well-formed sequence whole, whatever stands behind it. -/
theorem Encodes.firstRune {point : Nat} {a : UInt8} {more : Text} (h : Encodes point (a :: more))
    (rest : Text) : Text.firstRune a (more ++ rest) = (.scalar point, more.length) := by
  -- the ranges of the first byte do not overlap
  have hbelow {x y z : UInt8} (hx : x ≤ y) (hy : y ≤ z) : ¬z < x :=
    UInt8.not_lt.2 (UInt8.le_trans hx hy)
  unfold Text.firstRune
  simp only
  cases h with
  | one ha => rw [if_pos ha, List.length_nil]
  | @two a b hlow hhigh hb =>
      rw [if_neg (hbelow (by decide : (0x80 : UInt8) ≤ 0xC2) hlow), if_neg (UInt8.not_lt.2 hlow),
        if_pos hhigh]
      exact if_pos (continues_some hb.1 hb.2)
  | @three a b c hlow hhigh hb hfirst hlast hc =>
      have hbytes : (continues (if a == 0xE0 then 0xA0 else 0x80) (if a == 0xED then 0x9F else 0xBF)
          (some b) && continues 0x80 0xBF (some c)) = true := by
        rw [Bool.and_eq_true]
        exact ⟨continues_some (low_le hb.1 hfirst) (le_high hb.2 hlast), continues_some hc.1 hc.2⟩
      rw [if_neg (hbelow (by decide : (0x80 : UInt8) ≤ 0xE0) hlow),
        if_neg (hbelow (by decide : (0xC2 : UInt8) ≤ 0xE0) hlow), if_neg (UInt8.not_lt.2 hlow),
        if_pos hhigh]
      exact if_pos hbytes
  | @four a b c d hlow hhigh hb hfirst hlast hc hd =>
      have hbytes : ((continues (if a == 0xF0 then 0x90 else 0x80) (if a == 0xF4 then 0x8F else 0xBF)
          (some b) && continues 0x80 0xBF (some c)) && continues 0x80 0xBF (some d)) = true := by
        rw [Bool.and_eq_true, Bool.and_eq_true]
        exact ⟨⟨continues_some (low_le hb.1 hfirst) (le_high hb.2 hlast), continues_some hc.1 hc.2⟩,
          continues_some hd.1 hd.2⟩
      rw [if_neg (hbelow (by decide : (0x80 : UInt8) ≤ 0xF0) hlow),
        if_neg (hbelow (by decide : (0xC2 : UInt8) ≤ 0xF0) hlow),
        if_neg (hbelow (by decide : (0xE0 : UInt8) ≤ 0xF0) hlow), if_neg (UInt8.not_lt.2 hlow),
        if_pos hhigh]
      exact if_pos hbytes

/-! ## Sequences and code points -/

theorem toUInt8_of_eq {n : Nat} {b : UInt8} (h : n = b.toNat) : n.toUInt8 = b := by
  subst h
  exact UInt8.ofNat_toNat

theorem Continues.bounds {b : UInt8} (h : Continues b) : 0x80 ≤ b.toNat ∧ b.toNat ≤ 0xBF := by
  obtain ⟨hlow, hhigh⟩ := h
  rw [UInt8.le_iff_toNat_le] at hlow hhigh
  exact ⟨hlow, hhigh⟩

/-- What a first byte is not, its number is not. -/
theorem toNat_le_of_imp {a b : UInt8} {first low : UInt8} (h : a = first → low ≤ b) :
    a.toNat = first.toNat → low.toNat ≤ b.toNat := by
  intro heq
  have hle := h (UInt8.toNat_inj.1 heq)
  rwa [UInt8.le_iff_toNat_le] at hle

theorem toNat_ge_of_imp {a b : UInt8} {first high : UInt8} (h : a = first → b ≤ high) :
    a.toNat = first.toNat → b.toNat ≤ high.toNat := by
  intro heq
  have hle := h (UInt8.toNat_inj.1 heq)
  rwa [UInt8.le_iff_toNat_le] at hle

/-- The code point of a sequence is written as the sequence. -/
theorem Encodes.ofPoint {point : Nat} {bytes : Text} (h : Encodes point bytes) :
    Text.ofPoint point = bytes := by
  cases h with
  | @one a ha =>
      have ha : a.toNat < 0x80 := UInt8.lt_iff_toNat_lt.1 ha
      rw [Text.ofPoint, if_pos ha, toUInt8_of_eq rfl]
  | @two a b hlow hhigh hb =>
      have hlow : 0xC2 ≤ a.toNat := UInt8.le_iff_toNat_le.1 hlow
      have hhigh : a.toNat < 0xE0 := UInt8.lt_iff_toNat_lt.1 hhigh
      have hb := hb.bounds
      have hone : ¬a.toNat % 32 * 64 + b.toNat % 64 < 0x80 := by omega
      have htwo : a.toNat % 32 * 64 + b.toNat % 64 < 0x800 := by omega
      rw [Text.ofPoint, if_neg hone, if_pos htwo, @toUInt8_of_eq _ a (by omega),
        @toUInt8_of_eq _ b (by omega)]
  -- the limit on the second byte is what keeps the code point above those of two bytes
  | @three a b c hlow hhigh hb hfirst hlast hc =>
      have hlow : 0xE0 ≤ a.toNat := UInt8.le_iff_toNat_le.1 hlow
      have hhigh : a.toNat < 0xF0 := UInt8.lt_iff_toNat_lt.1 hhigh
      have hfirst : a.toNat = 0xE0 → 0xA0 ≤ b.toNat := toNat_le_of_imp hfirst
      have hb := hb.bounds
      have hc := hc.bounds
      have htwo : ¬a.toNat % 16 * 4096 + b.toNat % 64 * 64 + c.toNat % 64 < 0x800 := by omega
      have hone : ¬a.toNat % 16 * 4096 + b.toNat % 64 * 64 + c.toNat % 64 < 0x80 := by omega
      have hthree : a.toNat % 16 * 4096 + b.toNat % 64 * 64 + c.toNat % 64 < 0x10000 := by omega
      rw [Text.ofPoint, if_neg hone, if_neg htwo, if_pos hthree, @toUInt8_of_eq _ a (by omega),
        @toUInt8_of_eq _ b (by omega), @toUInt8_of_eq _ c (by omega)]
  | @four a b c d hlow hhigh hb hfirst hlast hc hd =>
      have hlow : 0xF0 ≤ a.toNat := UInt8.le_iff_toNat_le.1 hlow
      have hhigh : a.toNat < 0xF5 := UInt8.lt_iff_toNat_lt.1 hhigh
      have hfirst : a.toNat = 0xF0 → 0x90 ≤ b.toNat := toNat_le_of_imp hfirst
      have hb := hb.bounds
      have hc := hc.bounds
      have hd := hd.bounds
      -- the digits of the code point are those that the bytes were made of
      generalize hpoint : a.toNat % 8 * 262144 + b.toNat % 64 * 4096 + c.toNat % 64 * 64
        + d.toNat % 64 = point
      have hthree : ¬point < 0x10000 := by omega
      have htwo : ¬point < 0x800 := by omega
      have hone : ¬point < 0x80 := by omega
      rw [Text.ofPoint, if_neg hone, if_neg htwo, if_neg hthree, @toUInt8_of_eq _ a (by omega),
        @toUInt8_of_eq _ b (by omega), @toUInt8_of_eq _ c (by omega), @toUInt8_of_eq _ d (by omega)]

/-- Sequences are those of the code points that a text may hold. -/
theorem Encodes.isScalar {point : Nat} {bytes : Text} (h : Encodes point bytes) :
    Text.isScalar point = true := by
  suffices hscalar : point < 0xD800 ∨ 0xDFFF < point ∧ point ≤ 0x10FFFF by
    simpa [Text.isScalar] using hscalar
  cases h with
  | @one a ha =>
      have ha : a.toNat < 0x80 := UInt8.lt_iff_toNat_lt.1 ha
      omega
  | @two a b hlow hhigh hb => omega
  | @three a b c hlow hhigh hb hfirst hlast hc =>
      have hlow : 0xE0 ≤ a.toNat := UInt8.le_iff_toNat_le.1 hlow
      have hhigh : a.toNat < 0xF0 := UInt8.lt_iff_toNat_lt.1 hhigh
      have hlast : a.toNat = 0xED → b.toNat ≤ 0x9F := toNat_ge_of_imp hlast
      have hb := hb.bounds
      have hc := hc.bounds
      omega
  | @four a b c d hlow hhigh hb hfirst hlast hc hd =>
      have hlow : 0xF0 ≤ a.toNat := UInt8.le_iff_toNat_le.1 hlow
      have hhigh : a.toNat < 0xF5 := UInt8.lt_iff_toNat_lt.1 hhigh
      have hfirst : a.toNat = 0xF0 → 0x90 ≤ b.toNat := toNat_le_of_imp hfirst
      have hlast : a.toNat = 0xF4 → b.toNat ≤ 0x8F := toNat_ge_of_imp hlast
      have hb := hb.bounds
      have hc := hc.bounds
      have hd := hd.bounds
      omega

/-- A sequence of more than one byte starts beyond the ASCII bytes, and so do all of its bytes. -/
theorem Encodes.high {point : Nat} {bytes : Text} (h : Encodes point bytes) (hpoint : 0x80 ≤ point) :
    ∀ b ∈ bytes, 0x80 ≤ b := by
  have hcontinues {b : UInt8} (hb : Continues b) : 0x80 ≤ b := hb.1
  cases h with
  | @one a ha =>
      have ha : a.toNat < 0x80 := UInt8.lt_iff_toNat_lt.1 ha
      omega
  | two hlow _ hb =>
      have hfirst := UInt8.le_trans (by decide : (0x80 : UInt8) ≤ 0xC2) hlow
      simpa using ⟨hfirst, hcontinues hb⟩
  | three hlow _ hb _ _ hc =>
      have hfirst := UInt8.le_trans (by decide : (0x80 : UInt8) ≤ 0xE0) hlow
      simpa using ⟨hfirst, hcontinues hb, hcontinues hc⟩
  | four hlow _ hb _ _ hc hd =>
      have hfirst := UInt8.le_trans (by decide : (0x80 : UInt8) ≤ 0xF0) hlow
      simpa using ⟨hfirst, hcontinues hb, hcontinues hc, hcontinues hd⟩

/-- An ASCII code point is its own byte. -/
theorem Encodes.ascii {point : Nat} {bytes : Text} (h : Encodes point bytes) (hpoint : point < 0x80) :
    bytes = [point.toUInt8] := by
  rw [← h.ofPoint, Text.ofPoint, if_pos hpoint]

/-! ## Texts -/

/-- One rune of a text: a well-formed sequence or a byte of its own. -/
inductive IsRune : Rune → Text → Prop
  | scalar {point : Nat} {bytes : Text} : Encodes point bytes → IsRune (.scalar point) bytes
  | stray (b : UInt8) : IsRune (.stray b) [b]

theorem firstRune_cases (a : UInt8) (rest : Text) : (∃ point length,
    firstRune a rest = (.scalar point, length)) ∨ firstRune a rest = (.stray a, 0) := by
  have hite {c : Prop} [Decidable c] {point length : Nat} :
      (∃ p l, (if c then (Rune.scalar point, length) else (.stray a, 0)) = (.scalar p, l))
        ∨ (if c then (Rune.scalar point, length) else (.stray a, 0)) = (.stray a, 0) := by
    by_cases hc : c
    · exact .inl ⟨point, length, if_pos hc⟩
    · exact .inr (if_neg hc)
  unfold firstRune
  simp only
  by_cases hone : a < 0x80
  · exact .inl ⟨_, _, if_pos hone⟩
  rw [if_neg hone]
  by_cases hstray : a < 0xC2
  · exact .inr (if_pos hstray)
  rw [if_neg hstray]
  by_cases htwo : a < 0xE0
  · rw [if_pos htwo]
    exact hite
  rw [if_neg htwo]
  by_cases hthree : a < 0xF0
  · rw [if_pos hthree]
    exact hite
  rw [if_neg hthree]
  by_cases hfour : a < 0xF5
  · rw [if_pos hfour]
    exact hite
  · exact .inr (if_neg hfour)

/-- The runes of a text are sequences or single bytes, and they make up the text. -/
theorem runesWithBytes_induction {motive : Text → List (Rune × Text) → Prop} (nil : motive [] [])
    (cons : ∀ rune bytes rest, bytes ≠ [] → IsRune rune bytes → motive rest (runesWithBytes rest) →
      motive (bytes ++ rest) ((rune, bytes) :: runesWithBytes rest)) (t : Text) :
    motive t (runesWithBytes t) := by
  induction hlength : t.length using Nat.strongRecOn generalizing t with
  | ind n ih =>
      subst hlength
      cases t with
      | nil =>
          rw [runesWithBytes]
          exact nil
      | cons a rest =>
          rw [runesWithBytes]
          rcases firstRune_cases a rest with ⟨point, length, hfirst⟩ | hfirst
          · obtain ⟨more, tail, rfl, rfl, hencodes⟩ := encodes_of_firstRune hfirst
            simp only [hfirst, List.take_left', List.drop_left']
            have hless : tail.length < (a :: (more ++ tail)).length := by
              rw [List.length_cons, List.length_append]
              omega
            exact cons _ (a :: more) tail (List.cons_ne_nil a more) (.scalar hencodes)
              (ih tail.length hless tail rfl)
          · simp only [hfirst, List.take_zero, List.drop_zero]
            exact cons _ [a] rest (List.cons_ne_nil a []) (.stray a)
              (ih rest.length (Nat.lt_succ_self _) rest rfl)

/-- No byte of a text is lost between its runes. -/
theorem flatMap_runesWithBytes (t : Text) : (runesWithBytes t).flatMap (·.2) = t := by
  apply runesWithBytes_induction (motive := fun t runes => runes.flatMap (·.2) = t)
  · rfl
  · intro rune bytes rest _ _ ih
    rw [List.flatMap_cons, ih]

theorem isRune_of_mem {t : Text} {entry : Rune × Text} (h : entry ∈ runesWithBytes t) :
    IsRune entry.1 entry.2 := by
  revert h
  apply runesWithBytes_induction (motive := fun _ runes => entry ∈ runes → IsRune entry.1 entry.2)
  · intro h
    cases h
  · intro rune bytes rest _ hrune ih h
    rcases List.mem_cons.1 h with rfl | h
    · exact hrune
    · exact ih h

/-! ## Well-formed texts -/

/-- A sequence at the start of a text is its first rune. -/
theorem Encodes.runesWithBytes {point : Nat} {bytes : Text} (h : Encodes point bytes) (rest : Text) :
    Text.runesWithBytes (bytes ++ rest) = (.scalar point, bytes) :: Text.runesWithBytes rest := by
  obtain ⟨a, more, rfl⟩ : ∃ a more, bytes = a :: more := by cases h <;> exact ⟨_, _, rfl⟩
  rw [List.cons_append, Text.runesWithBytes, h.firstRune rest]
  simp only [List.take_left', List.drop_left']

theorem isUtf8_iff {t : Text} :
    t.isUtf8 = true ↔ ∀ entry ∈ runesWithBytes t, ∃ point, entry.1 = .scalar point := by
  simp only [isUtf8, runes, List.all_map, List.all_eq_true]
  apply forall₂_congr
  rintro ⟨rune, bytes⟩ _
  cases rune <;> simp

/-- A well-formed text is one sequence behind the other. -/
theorem isUtf8_induction {motive : Text → Prop} (nil : motive [])
    (cons : ∀ point bytes rest, Encodes point bytes → motive rest → motive (bytes ++ rest)) {t : Text}
    (h : t.isUtf8 = true) : motive t := by
  rw [isUtf8_iff] at h
  revert h
  apply runesWithBytes_induction (motive := fun t runes =>
    (∀ entry ∈ runes, ∃ point, entry.1 = .scalar point) → motive t)
  · intro _
    exact nil
  · intro rune bytes rest _ hrune ih h
    obtain ⟨point, hpoint⟩ := h (rune, bytes) List.mem_cons_self
    obtain rfl : rune = .scalar point := hpoint
    obtain ⟨hencodes⟩ := hrune
    exact cons point bytes rest hencodes (ih fun entry hentry => h entry (List.mem_cons_of_mem _ hentry))

theorem Encodes.isUtf8_append {point : Nat} {bytes : Text} (h : Encodes point bytes) (rest : Text) :
    isUtf8 (bytes ++ rest) = isUtf8 rest := by
  rw [isUtf8, runes, h.runesWithBytes]
  rfl

theorem isUtf8_append {t : Text} (h : t.isUtf8 = true) (rest : Text) :
    isUtf8 (t ++ rest) = isUtf8 rest := by
  apply isUtf8_induction (motive := fun t => isUtf8 (t ++ rest) = isUtf8 rest) rfl ?_ h
  intro point bytes more hencodes ih
  rw [List.append_assoc, hencodes.isUtf8_append, ih]

theorem isUtf8_nil : isUtf8 [] = true := by rw [isUtf8, runes, runesWithBytes]; rfl

/-- A text of ASCII bytes is well formed. -/
theorem isUtf8_of_ascii {t : Text} (h : ∀ b ∈ t, b < 0x80) : t.isUtf8 = true := by
  induction t with
  | nil => exact isUtf8_nil
  | cons b t ih =>
      have hfirst := Encodes.one (h b List.mem_cons_self)
      exact (hfirst.isUtf8_append t).trans (ih fun c hc => h c (List.mem_cons_of_mem b hc))

/-! ## Words in any case -/

/-- Every rune of a text that spells a word is a form of a letter of the word. -/
theorem exists_foldsTo {word t : Text} (h : equalFold word t = true) {rune : Rune}
    (hrune : rune ∈ runes t) : ∃ c ∈ word, rune.foldsTo c = true := by
  simp only [equalFold, Bool.and_eq_true, beq_iff_eq, List.all_eq_true] at h
  obtain ⟨i, hi, rfl⟩ := List.getElem_of_mem hrune
  have hword : i < word.length := h.1 ▸ hi
  refine ⟨word[i], List.getElem_mem hword, h.2 (word[i], (runes t)[i]) ?_⟩
  rw [List.mem_iff_getElem]
  exact ⟨i, by rw [List.length_zip]; omega, List.getElem_zip⟩

/-- A text that spells a word has no ASCII byte but letters of the word. -/
theorem not_mem_of_equalFold {word t : Text} (h : equalFold word t = true) {b : UInt8} (hb : b < 0x80)
    (hword : ∀ c ∈ word, lowerByte b ≠ lowerByte c) : b ∉ t := by
  intro hmem
  rw [← flatMap_runesWithBytes t] at hmem
  obtain ⟨entry, hentry, hbytes⟩ := List.mem_flatMap.1 hmem
  obtain ⟨c, hc, hfolds⟩ := exists_foldsTo h (List.mem_map_of_mem hentry)
  cases hrune : entry.1 with
  | stray =>
      rw [hrune] at hfolds
      cases hfolds
  | scalar point =>
      have hencodes := isRune_of_mem hentry
      rw [hrune] at hfolds hencodes
      obtain ⟨hencodes⟩ := hencodes
      by_cases hascii : point < 0x80
      · rw [hencodes.ascii hascii, List.mem_singleton] at hbytes
        rw [Rune.foldsTo, if_pos hascii, ← hbytes, beq_iff_eq] at hfolds
        exact hword c hc hfolds
      · exact UInt8.not_le.2 hb (hencodes.high (Nat.le_of_not_lt hascii) b hbytes)

end TickScript.Text
