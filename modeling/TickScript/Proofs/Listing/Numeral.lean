import Mathlib.Data.List.Induction
import TickScript.Proofs.Listing.Number

/-!
# Numerals and what they spell

An integer of a listing is an optional sign and decimal digits, or hexadecimal ones behind `0x`. What
it spells is said here without a reader: `Spelled` goes by the digits alone, and a leading zero makes
them octal. The reader of words accepts an integer exactly when the number it spells is a signed or an
unsigned word, and then answers that word.

This is the direction that the printer does not need: a listing may be written by hand, with a plus
sign, with leading zeros, or in hexadecimal with letters of either case. The readers accept exactly
the numerals in range, which gives both that a number is read as what it spells and that nothing
else is read as a number.
-/

namespace TickScript

open Text

namespace Number

/-! ## What is spelled -/

/-- The digits of a text spell a number in a base. -/
inductive Spelled (base : Nat) : Text → Nat → Prop
  | nil : Spelled base [] 0
  | snoc {t : Text} {b : UInt8} {n d : Nat} : Spelled base t n → digit? b = some d → d < base →
    Spelled base (t ++ [b]) (n * base + d)

/-- A numeral without a sign and its number. -/
inductive Magnitude : Text → Nat → Prop
  /-- A zero, an x of either case and digits of base 16. -/
  | hexadecimal {mark : UInt8} {digits : Text} {n : Nat} : lowerByte mark = byte 'x' → digits ≠ [] →
    Spelled 16 digits n → Magnitude (0x30 :: mark :: digits) n
  /-- A zero and digits of base 8. -/
  | octal {digits : Text} {n : Nat} : Spelled 8 digits n → Magnitude (0x30 :: digits) n
  /-- Digits that do not start with a zero. -/
  | decimal {b : UInt8} {digits : Text} {n : Nat} : b ≠ 0x30 → Spelled 10 (b :: digits) n →
    Magnitude (b :: digits) n

/-- A numeral and its number. -/
inductive Numeral : Text → Int → Prop
  /-- A magnitude without a sign. -/
  | unsigned {t : Text} {n : Nat} : Magnitude t n → Numeral t n
  /-- A plus sign changes nothing. -/
  | plus {t : Text} {n : Nat} : Magnitude t n → Numeral (0x2B :: t) n
  /-- A minus sign negates. -/
  | minus {t : Text} {n : Nat} : Magnitude t n → Numeral (0x2D :: t) (-n)

/-- The last digit of a spelling counts once and what stands before it by the base. -/
theorem Spelled.snoc_inv {base : Nat} {t : Text} {b : UInt8} {n : Nat} (h : Spelled base (t ++ [b]) n) :
    ∃ m d, Spelled base t m ∧ digit? b = some d ∧ d < base ∧ n = m * base + d := by
  generalize ht : t ++ [b] = u at h
  cases h with
  | nil => simp at ht
  | snoc hfirst hdigit hsmall =>
      obtain ⟨rfl, hlast⟩ := List.append_inj' ht rfl
      obtain rfl := (List.cons.inj hlast).1
      exact ⟨_, _, hfirst, hdigit, hsmall, rfl⟩

/-- Every byte of a numeral is a digit of its base. -/
theorem Spelled.digit_of_mem {base : Nat} {t : Text} {n : Nat} (h : Spelled base t n) :
    ∀ b ∈ t, ∃ d, digit? b = some d ∧ d < base := by
  induction h with
  | nil => simp
  | snoc _ hdigit hsmall ih =>
      exact List.forall_mem_append.2 ⟨ih, List.forall_mem_singleton.2 ⟨_, hdigit, hsmall⟩⟩

/-- A numeral without a sign starts with a digit. -/
theorem Magnitude.exists_cons {t : Text} {n : Nat} (h : Magnitude t n) :
    ∃ b rest d, t = b :: rest ∧ digit? b = some d := by
  cases h with
  | hexadecimal _ _ _ => exact ⟨_, _, 0, rfl, rfl⟩
  | octal _ => exact ⟨_, _, 0, rfl, rfl⟩
  | decimal _ h =>
      obtain ⟨d, hd, -⟩ := h.digit_of_mem _ List.mem_cons_self
      exact ⟨_, _, d, rfl, hd⟩

/-- The sign and the magnitude of a numeral. -/
theorem numeral_iff {t : Text} {n : Int} : Numeral t n
    ↔ ∃ m : Nat, Magnitude (dropSign t) m ∧ n = if t.head? = some 0x2D then -(m : Int) else m := by
  constructor
  · intro h
    cases h with
    | @unsigned t m h =>
        obtain ⟨b, rest, d, rfl, hd⟩ := h.exists_cons
        have hminus : b ≠ 0x2D := by
          rintro rfl
          cases hd
        have hplus : b ≠ 0x2B := by
          rintro rfl
          cases hd
        refine ⟨m, ?_, by simp [hminus]⟩
        rwa [dropSign_of_head (by simpa using hminus) (by simpa using hplus)]
    | @plus t m h => exact ⟨m, h, by simp⟩
    | @minus t m h => exact ⟨m, h, by simp⟩
  · rintro ⟨m, h, rfl⟩
    by_cases hminus : t.head? = some 0x2D
    · obtain ⟨rest, rfl⟩ := List.head?_eq_some_iff.1 hminus
      rw [if_pos hminus]
      exact .minus h
    · rw [if_neg hminus]
      by_cases hplus : t.head? = some 0x2B
      · obtain ⟨rest, rfl⟩ := List.head?_eq_some_iff.1 hplus
        exact .plus h
      · rw [dropSign_of_head hminus hplus] at h
        exact .unsigned h

/-! ## Reading digits -/

/-- One digit more multiplies by the base and adds the digit, within the limit. -/
theorem readDigits_singleton {base limit value n : Nat} {b : UInt8} (hb : b ≠ 0x5F) :
    readDigits base limit true value [b] = .ok n
      ↔ ∃ d, digit? b = some d ∧ d < base ∧ n = value * base + d ∧ n ≤ limit := by
  have hplain : (b == 0x5F && true) = false := by simpa using hb
  simp only [readDigits, hplain, Bool.false_eq_true, if_false]
  cases digit? b with
  | none => simp
  | some d =>
      by_cases hsmall : base ≤ d
      · simp [hsmall, Nat.not_lt.2 hsmall]
      · by_cases hlimit : limit < value * base + d
        · simp only [hsmall, hlimit, if_true, if_false, reduceCtorEq, Option.some.injEq, false_iff]
          rintro ⟨d', rfl, -, rfl, hn⟩
          omega
        · simp only [hsmall, hlimit, if_false, Except.ok.injEq, Option.some.injEq]
          constructor
          · rintro rfl
            exact ⟨d, rfl, by omega, rfl, by omega⟩
          · rintro ⟨d', rfl, -, rfl, -⟩
            rfl

/-- Digits are read as the number that they spell, if that is in range. -/
theorem readDigits_iff {base limit n : Nat} {t : Text} (ht : 0x5F ∉ t) :
    readDigits base limit true 0 t = .ok n ↔ Spelled base t n ∧ n ≤ limit := by
  induction t using List.reverseRecOn generalizing n with
  | nil =>
      simp only [readDigits, Except.ok.injEq]
      constructor
      · rintro rfl
        exact ⟨.nil, Nat.zero_le _⟩
      · rintro ⟨h, -⟩
        generalize hnil : ([] : Text) = t at h
        cases h with
        | nil => rfl
        | snoc => simp at hnil
  | append_singleton t b ih =>
      have hb : b ≠ 0x5F := fun hb => ht (by simp [hb])
      have ht : 0x5F ∉ t := fun h => ht (List.mem_append_left _ h)
      rw [readDigits_append]
      constructor
      · intro h
        cases hfirst : readDigits base limit true 0 t with
        | error e =>
            rw [hfirst] at h
            cases h
        | ok m =>
            rw [hfirst] at h
            obtain ⟨d, hdigit, hsmall, rfl, hn⟩ := (readDigits_singleton hb).1 h
            exact ⟨.snoc ((ih ht).1 hfirst).1 hdigit hsmall, hn⟩
      · rintro ⟨h, hn⟩
        obtain ⟨m, d, hfirst, hdigit, hsmall, rfl⟩ := h.snoc_inv
        -- a digit more never makes a number smaller, so the front is in range as well
        have hm : m ≤ m * base := Nat.le_mul_of_pos_right m (by omega)
        rw [(ih ht).2 ⟨hfirst, by omega⟩]
        exact (readDigits_singleton hb).2 ⟨d, hdigit, hsmall, rfl, hn⟩

end Number

namespace Listing

open Number

/-! ## The integers of a listing -/

/-- The bytes of an integer without its sign. -/
inductive IsMagnitude : Text → Prop
  | decimal {b : UInt8} {digits : Text} : isDigit b = true → (∀ c ∈ digits, isDigit c = true) →
    IsMagnitude (b :: digits)
  | hexadecimal {mark : UInt8} {digits : Text} : lowerByte mark = byte 'x' → digits ≠ [] →
    (∀ c ∈ digits, isHexDigit c = true) → IsMagnitude (0x30 :: mark :: digits)

/-- The bytes of an integer. Its digits may be none of the base that a leading zero stands for. -/
inductive IsInt : Text → Prop
  | unsigned {t : Text} : IsMagnitude t → IsInt t
  | signed {sign : UInt8} {t : Text} : sign = 0x2D ∨ sign = 0x2B → IsMagnitude t → IsInt (sign :: t)

theorem isDigit_lower {b : UInt8} (h : isDigit b = true) : lowerByte b = b := by
  rw [lowerByte, if_neg]
  simp [isDigit, isUpper, UInt8.le_iff_toNat_le] at h ⊢
  omega

/-- The mark of a hexadecimal number is no digit of a base up to sixteen. -/
theorem digit?_of_lower_x {b : UInt8} (h : lowerByte b = byte 'x') : ∀ d ∈ digit? b, d = 33 := by
  intro d hd
  rw [digit?] at hd
  split at hd
  · next hdigit =>
      rw [isDigit_lower hdigit] at h
      subst h
      cases hdigit
  · split at hd
    · rw [h] at hd
      exact (Option.some.inj hd).symm
    · cases hd

/-- Decimal digits behind a zero are taken for octal ones. -/
theorem markedBase_zero {digits : Text} (h : ∀ b ∈ digits, isDigit b = true) :
    markedBase (0x30 :: digits) = (8, digits) := by
  match digits, h with
  | [], _ => rfl
  | [_], _ => rfl
  | b :: c :: t, h =>
      have hb := h b List.mem_cons_self
      have hne {m : UInt8} (hm : isDigit m = false) : (lowerByte b == m) = false := by
        rw [isDigit_lower hb]
        simpa using ne_of_class hb hm
      simp only [markedBase, hne (show isDigit (byte 'b') = false from rfl),
        hne (show isDigit (byte 'o') = false from rfl), hne (show isDigit (byte 'x') = false from rfl),
        Bool.false_eq_true, if_false]

/-- A magnitude begins with a digit. -/
theorem IsMagnitude.head_ne {t : Text} (h : IsMagnitude t) {b : UInt8} (hb : isDigit b = false) :
    t.head? ≠ some b := by
  cases h with
  | decimal hdigit _ => simpa using ne_of_class hdigit hb
  | hexadecimal _ _ _ => simpa using ne_of_class (show isDigit 0x30 = true from rfl) hb

/-- An integer without a sign is read as the number that it spells, if that is in range. -/
theorem unsignedMarked_iff {bits n : Nat} {t : Text} (h : IsMagnitude t) :
    unsignedMarked bits t = .ok n ↔ Magnitude t n ∧ n < 2 ^ bits := by
  -- the digits behind the mark are read in the base that the mark gives
  have hread {base : Nat} {digits : Text} (hne : t ≠ []) (hmark : markedBase t = (base, digits))
      (hplain : 0x5F ∉ digits) :
      unsignedMarked bits t = .ok n ↔ Spelled base digits n ∧ n < 2 ^ bits := by
    have hpow : 0 < 2 ^ bits := Nat.two_pow_pos bits
    rw [unsignedMarked_eq hne hmark hplain, readDigits_iff hplain]
    show _ ∧ n ≤ 2 ^ bits - 1 ↔ _
    rw [Nat.le_sub_one_iff_lt hpow]
  cases h with
  | @decimal b digits hb hdigits =>
      have hplain {t : Text} (ht : ∀ c ∈ t, isDigit c = true) : 0x5F ∉ t := fun hmem =>
        absurd (ht _ hmem) (by decide)
      -- a leading zero makes the number octal
      by_cases hzero : b = 0x30
      · subst hzero
        rw [hread (by simp) (markedBase_zero hdigits) (hplain hdigits)]
        refine and_congr_left fun _ => ⟨.octal, fun h => ?_⟩
        cases h with
        | hexadecimal hmark _ _ =>
            -- a digit is no letter x, in either case
            have hdigit := hdigits _ List.mem_cons_self
            rw [isDigit_lower hdigit] at hmark
            subst hmark
            cases hdigit
        | octal h => exact h
        | decimal hne _ => exact absurd rfl hne
      · have hall : ∀ c ∈ b :: digits, isDigit c = true := List.forall_mem_cons.2 ⟨hb, hdigits⟩
        rw [hread (by simp) (markedBase_of_ne hzero digits) (hplain hall)]
        refine and_congr_left fun _ => ⟨.decimal hzero, fun h => ?_⟩
        cases h with
        | hexadecimal _ _ _ => exact absurd rfl hzero
        | octal _ => exact absurd rfl hzero
        | decimal _ h => exact h
  | @hexadecimal mark digits hmark hne hdigits =>
      have hplain : 0x5F ∉ digits := fun hmem => absurd (hdigits _ hmem) (by decide)
      have hbase : markedBase (0x30 :: mark :: digits) = (16, digits) := by
        obtain ⟨c, t, rfl⟩ := List.exists_cons_of_ne_nil hne
        simp only [markedBase, hmark]
        rfl
      rw [hread (by simp) hbase hplain]
      refine and_congr_left fun _ => ⟨.hexadecimal hmark hne, fun h => ?_⟩
      cases h with
      | hexadecimal _ _ h => exact h
      | octal h =>
          -- the letter x is no octal digit
          obtain ⟨d, hd, hsmall⟩ := h.digit_of_mem _ List.mem_cons_self
          have hlarge := digit?_of_lower_x hmark d hd
          omega
      | decimal hne _ => exact absurd rfl hne

/-- A sign is no part of a number without sign. -/
theorem not_unsignedMarked_sign {bits n : Nat} {b : UInt8} (hb : b = 0x2D ∨ b = 0x2B) (t : Text) :
    unsignedMarked bits (b :: t) ≠ .ok n := by
  have hzero : b ≠ 0x30 := by rcases hb with rfl | rfl <;> decide
  have hfirst : readDigits 10 (Nat.pow 2 bits - 1) true 0 (b :: t) = .error .malformed := by
    rcases hb with rfl | rfl <;> rfl
  simp only [unsignedMarked, markedBase_of_ne hzero, List.isEmpty_cons, hfirst]
  intro h
  cases h

/-- What is read for the bytes of a byte list. -/
theorem IsInt.unsignedMarked {bits n : Nat} {t : Text} (h : IsInt t)
    (hread : unsignedMarked bits t = .ok n) : Magnitude t n ∧ n < 2 ^ bits := by
  cases h with
  | unsigned h => exact (unsignedMarked_iff h).1 hread
  | signed hsign _ => exact absurd hread (not_unsignedMarked_sign hsign _)

/-- Behind its sign an integer is a magnitude. -/
theorem IsInt.dropSign {t : Text} (h : IsInt t) : IsMagnitude (dropSign t) := by
  cases h with
  | unsigned h =>
      rwa [dropSign_of_head (h.head_ne (by decide)) (h.head_ne (by decide))]
  | signed hsign h => rcases hsign with rfl | rfl <;> exact h

/-- A signed word is its magnitude with its sign. -/
theorem signedBy_ok_iff {magnitude : Text → Except Fault Nat} {t : Text} {n : Int} :
    signedBy magnitude 64 t = .ok n ↔ ∃ m : Nat, magnitude (dropSign t) = .ok m
      ∧ n = (if t.head? = some 0x2D then -(m : Int) else m) ∧ -2 ^ 63 ≤ n ∧ n < 2 ^ 63 := by
  have hhalf : Nat.pow 2 (64 - 1) = 2 ^ 63 := rfl
  have hwhole : Nat.pow 2 64 = 2 ^ 64 := rfl
  simp only [signedBy, hhalf, hwhole, beq_iff_eq]
  cases magnitude (dropSign t) with
  | ok m =>
      by_cases hminus : t.head? = some 0x2D
      · by_cases hlow : 2 ^ 63 < m
        · simp only [hminus, hlow, if_true, reduceCtorEq, Except.ok.injEq, false_iff]
          rintro ⟨m', rfl, rfl, hbound, -⟩
          omega
        · simp only [hminus, hlow, if_true, if_false, Except.ok.injEq]
          constructor
          · rintro rfl
            exact ⟨m, rfl, rfl, by omega, by omega⟩
          · rintro ⟨m', rfl, rfl, -⟩
            rfl
      · by_cases hhigh : 2 ^ 63 ≤ m
        · simp only [hminus, hhigh, if_true, if_false, reduceCtorEq, Except.ok.injEq, false_iff]
          rintro ⟨m', rfl, rfl, -, hbound⟩
          omega
        · simp only [hminus, hhigh, if_false, Except.ok.injEq]
          constructor
          · rintro rfl
            exact ⟨m, rfl, rfl, by omega, by omega⟩
          · rintro ⟨m', rfl, rfl, -⟩
            rfl
  | error fault =>
      -- what is out of range without a sign is so with one
      cases fault with
      | malformed => simp
      | outOfRange bound =>
          by_cases hminus : t.head? = some 0x2D <;> simp [hminus]

/-- An integer is read as the signed word that it spells, if it spells one. -/
theorem signedMarked_iff {t : Text} (h : IsInt t) {n : Int} :
    signedMarked 64 t = .ok n ↔ Numeral t n ∧ -2 ^ 63 ≤ n ∧ n < 2 ^ 63 := by
  rw [signedMarked, signedBy_ok_iff, numeral_iff]
  constructor
  · rintro ⟨m, hread, hn, hlow, hhigh⟩
    exact ⟨⟨m, ((unsignedMarked_iff h.dropSign).1 hread).1, hn⟩, hlow, hhigh⟩
  · rintro ⟨⟨m, hm, hn⟩, hlow, hhigh⟩
    refine ⟨m, (unsignedMarked_iff h.dropSign).2 ⟨hm, ?_⟩, hn, hlow, hhigh⟩
    split at hn <;> omega

/-- A magnitude spells one number only. -/
theorem IsMagnitude.unique {t : Text} (h : IsMagnitude t) {m n : Nat} (hm : Magnitude t m)
    (hn : Magnitude t n) : m = n := by
  -- at a width that holds both numbers the reader answers both
  have hread {k : Nat} (hk : k ≤ max m n) (hspelled : Magnitude t k) :
      unsignedMarked (max m n) t = .ok k :=
    (unsignedMarked_iff h).2 ⟨hspelled, Nat.lt_of_lt_of_le Nat.lt_two_pow_self
      (Nat.pow_le_pow_right Nat.two_pos hk)⟩
  exact Except.ok.inj ((hread (Nat.le_max_left m n) hm).symm.trans (hread (Nat.le_max_right m n) hn))

/-- An integer spells at most one number. -/
theorem IsInt.unique {t : Text} (h : IsInt t) {m n : Int} (hm : Numeral t m) (hn : Numeral t n) :
    m = n := by
  obtain ⟨a, ha, rfl⟩ := numeral_iff.1 hm
  obtain ⟨b, hb, rfl⟩ := numeral_iff.1 hn
  rw [h.dropSign.unique ha hb]

/-- The marks of the bases are all that separates the two readings. -/
theorem readUnsigned_eq_ok {bits n : Nat} {t : Text} :
    readUnsigned bits t = .ok n ↔ Number.unsignedMarked bits t = .ok n := by
  rw [readUnsigned]
  cases Number.unsignedMarked bits t <;> simp

/-- What is read as a byte is the byte that is spelled. -/
theorem IsInt.readByte {t : Text} (h : IsInt t) {n : Nat} (hread : readUnsigned 8 t = .ok n) :
    Magnitude t n.toUInt8.toNat := by
  obtain ⟨hn, hsmall⟩ := h.unsignedMarked (readUnsigned_eq_ok.1 hread)
  have hbyte : n.toUInt8.toNat = n := UInt8.toNat_ofNat_of_lt' hsmall
  rwa [hbyte]

theorem map_readUnsigned_eq_ok {bits : Nat} {t : Text} {w : UInt64} :
    (readUnsigned bits t).map UInt64.ofNat = .ok w
      ↔ ∃ n, Number.unsignedMarked bits t = .ok n ∧ w = UInt64.ofNat n := by
  simp only [← readUnsigned_eq_ok]
  cases readUnsigned bits t with
  | ok n => simp [Except.map, eq_comm]
  | error fault => simp [Except.map]

/-- What is no signed word is read without its plus sign. -/
theorem readWord_of_signed_error {t : Text} {fault : Fault} (hsigned : signedMarked 64 t = .error fault)
    (hminus : t.head? ≠ some 0x2D) :
    readWord t = (readUnsigned 64 (Number.dropSign t)).map UInt64.ofNat := by
  unfold readWord
  simp only [hsigned]
  by_cases hplus : t.head? = some 0x2B
  · obtain ⟨rest, rfl⟩ := List.head?_eq_some_iff.1 hplus
    rfl
  · rw [dropSign_of_head hminus hplus]
    split
    · next heq => simp at hplus
    · rfl

/-- An integer is read as a word exactly when it spells a signed or an unsigned one. -/
theorem readWord_iff {t : Text} (h : IsInt t) {w : UInt64} : readWord t = .ok w
    ↔ ∃ n, Numeral t n ∧ -2 ^ 63 ≤ n ∧ n < 2 ^ 64 ∧ w = (Int64.ofInt n).toUInt64 := by
  -- a number of the signed range is read as such, any other number as an unsigned one
  cases hsigned : signedMarked 64 t with
  | ok n =>
      obtain ⟨hn, hlow, hhigh⟩ := (signedMarked_iff h).1 hsigned
      have hread : readWord t = .ok (Int64.ofInt n).toUInt64 := by
        unfold readWord
        rw [hsigned]
      rw [hread]
      constructor
      · intro hw
        exact ⟨n, hn, hlow, by omega, (Except.ok.inj hw).symm⟩
      · rintro ⟨n', hn', -, -, rfl⟩
        rw [h.unique hn hn']
  | error fault =>
      -- what is left for the unsigned reader is at least 2 ^ 63
      have hlarge {n : Int} (hn : Numeral t n) (hlow : -2 ^ 63 ≤ n) : 2 ^ 63 ≤ n := by
        by_contra hhigh
        rw [(signedMarked_iff h).2 ⟨hn, hlow, by omega⟩] at hsigned
        cases hsigned
      -- a negative number is out of both ranges
      by_cases hminus : t.head? = some 0x2D
      · obtain ⟨rest, rfl⟩ := List.head?_eq_some_iff.1 hminus
        constructor
        · intro hw
          unfold readWord at hw
          rw [hsigned] at hw
          obtain ⟨m, hread, -⟩ := map_readUnsigned_eq_ok.1 hw
          exact absurd hread (not_unsignedMarked_sign (.inl rfl) rest)
        · rintro ⟨n, hn, hlow, -⟩
          have hhigh := hlarge hn hlow
          obtain ⟨m, -, rfl⟩ := numeral_iff.1 hn
          rw [if_pos hminus] at hhigh
          omega
      · rw [readWord_of_signed_error hsigned hminus, map_readUnsigned_eq_ok]
        constructor
        · rintro ⟨m, hread, rfl⟩
          obtain ⟨hm, hbound⟩ := (unsignedMarked_iff h.dropSign).1 hread
          refine ⟨m, numeral_iff.2 ⟨m, hm, (if_neg hminus).symm⟩, by omega, by omega, ?_⟩
          rw [Int64.ofInt_eq_ofNat]
          rfl
        · rintro ⟨n, hn, -, hhigh, rfl⟩
          obtain ⟨m, hm, rfl⟩ := numeral_iff.1 hn
          rw [if_neg hminus] at hhigh ⊢
          refine ⟨m, (unsignedMarked_iff h.dropSign).2 ⟨hm, by omega⟩, ?_⟩
          rw [Int64.ofInt_eq_ofNat]
          rfl

end Listing

end TickScript
