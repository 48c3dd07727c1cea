import TickScript.Listing.Assembler
import TickScript.Listing.Printer
import TickScript.Proofs.Instr
import TickScript.Proofs.Number.Integer

/-!
# Numbers in listings

A listing writes words as signed decimal numbers and raw words in hexadecimal with a base mark, and
the readers take either for what it says: a number without a mark never starts with a zero, so it is
not taken for an octal one, and a hexadecimal word that is too large for a signed number is read as
an unsigned one. A name is never taken for a number, not even one that starts with an underscore and
goes on with digits.

The two readers differ in what they do about a sign and about a base, and share the reading of
digits. What is proved about digits is in `Proofs.Text.Digits`; here it is only applied to what a
listing writes, where the base is always known.
-/

namespace TickScript

/-- A name starts with a letter, an underscore or a dollar sign and goes on with bytes of names. -/
theorem Listing.exists_of_isName {t : Text} (h : Listing.isName t = true) : ∃ b rest, t = b :: rest
    ∧ Listing.startsName b = true ∧ ∀ c ∈ rest, Listing.inName c = true := by
  cases t with
  | nil => cases h
  | cons b rest =>
      by_cases hstart : Listing.startsName b = true
      · have hwhole : rest.takeWhile Listing.inName = rest := by
          simpa [Listing.isName, Listing.nameAt, hstart] using h
        refine ⟨b, rest, rfl, hstart, ?_⟩
        intro c hc
        rw [← hwhole] at hc
        exact List.mem_takeWhile_imp hc
      · simp [Listing.isName, Listing.nameAt, hstart] at h

theorem Listing.isName_cons {b : UInt8} {rest : Text} (hstart : Listing.startsName b = true)
    (hrest : ∀ c ∈ rest, Listing.inName c = true) : Listing.isName (b :: rest) = true := by
  have hwhole : rest.takeWhile Listing.inName = rest := by
    have hwhole := @Text.takeWhile_append_stop Listing.inName rest [] hrest (by simp)
    rwa [List.append_nil] at hwhole
  simp [Listing.isName, Listing.nameAt, hstart, hwhole]

namespace Number

open Text

/-! ## Names -/

/-- What starts a name is no decimal digit. -/
theorem digit?_of_startsName {b : UInt8} (h : Listing.startsName b = true) : ∀ d ∈ digit? b, 10 ≤ d := by
  have hdigit : isDigit b = false := by
    rw [Bool.eq_false_iff]
    simp [Listing.startsName, isLetter, isLower, isUpper, isDigit, UInt8.le_iff_toNat_le,
      ← UInt8.toNat_inj] at h ⊢
    omega
  rw [digit?, hdigit]
  split
  · next hfalse => cases hfalse
  split
  · next hletter =>
      intro d hd
      obtain rfl := Option.some.inj hd
      rw [isLetter, Bool.or_eq_true] at hletter
      have hbound := b.toNat_lt
      by_cases hupper : isUpper b = true
      · rw [lowerByte, if_pos hupper]
        simp [isUpper, UInt8.le_iff_toNat_le] at hupper
        simp [UInt8.toNat_add]
        omega
      · rw [lowerByte, if_neg hupper]
        have hlower := hletter.resolve_right hupper
        simp [isLower, UInt8.le_iff_toNat_le] at hlower
        omega
  · intro d hd
    cases hd

/-- An unsigned number does not start as a name does. An underscore in front is passed over while the
digits are read, but it stands behind no digit. -/
theorem unsignedMarked_name (bits : Nat) {b : UInt8} (hstart : Listing.startsName b = true)
    (rest : Text) : ∃ fault, unsignedMarked bits (b :: rest) = .error fault := by
  have hzero : b ≠ 0x30 := ne_of_class hstart rfl
  simp only [unsignedMarked, markedBase_of_ne hzero, List.isEmpty_cons, Bool.false_eq_true, if_false,
    bind, Except.bind]
  by_cases hunderscore : b = 0x5F
  · subst hunderscore
    have hmisplaced : underscoresOk (0x5F :: rest) = false := rfl
    cases readDigits 10 (Nat.pow 2 bits - 1) true 0 (0x5F :: rest) with
    | error fault => exact ⟨fault, rfl⟩
    | ok value =>
        refine ⟨.malformed, ?_⟩
        simp only [hmisplaced, List.contains_cons, BEq.rfl, Bool.true_or, Bool.not_false, Bool.and_true,
          if_true]
        rfl
  · refine ⟨.malformed, ?_⟩
    have hfirst : readDigits 10 (Nat.pow 2 bits - 1) true 0 (b :: rest) = .error .malformed := by
      rw [readDigits, if_neg (by simp [hunderscore])]
      split
      · rfl
      · next d hd => rw [if_pos (digit?_of_startsName hstart d hd)]
    rw [hfirst]

/-- A name is not a number. -/
theorem signedMarked_name {t : Text} (h : Listing.isName t = true) :
    ∃ fault, signedMarked 64 t = .error fault := by
  obtain ⟨b, rest, rfl, hstart, -⟩ := Listing.exists_of_isName h
  have hminus : b ≠ 0x2D := ne_of_class hstart rfl
  have hplus : b ≠ 0x2B := ne_of_class hstart rfl
  have hdrop : dropSign (b :: rest) = b :: rest :=
    dropSign_of_head (by simpa using hminus) (by simpa using hplus)
  obtain ⟨fault, hfault⟩ := unsignedMarked_name 64 hstart rest
  cases fault with
  | malformed => exact ⟨.malformed, by rw [signedMarked, signedBy, hdrop, hfault]⟩
  | outOfRange bound =>
      refine ⟨.outOfRange (Nat.pow 2 63 - 1), ?_⟩
      have hnegative : ((b :: rest).head? == some 0x2D) = false := by simpa using hminus
      simp only [signedMarked, signedBy, hdrop, hfault, hnegative, Bool.false_eq_true, if_false]
      rfl

end Number

namespace Listing

open Number Text

/-! ## Words -/

/-- A printed word is read back, with a sign or without. -/
theorem readWord_ofInt (w : Int64) : readWord (ofInt w.toInt) = .ok w.toUInt64 := by
  unfold readWord
  rw [signedMarked_ofInt w.le_toInt w.toInt_lt]
  simp only [Int64.ofInt_toInt]

/-- A printed number is read back if it fits the bits. -/
theorem readUnsigned_ofNat {bits n : Nat} (hn : n < 2 ^ bits) : readUnsigned bits (ofNat n) = .ok n := by
  rw [readUnsigned, unsignedMarked_ofNat hn]

/-- A raw word is read as a signed number where it can be, and as an unsigned one otherwise. -/
theorem readWord_hexWord (w : UInt64) : readWord (hexWord w.toNat) = .ok w := by
  have hread : unsignedMarked 64 (hexWord w.toNat) = .ok w.toNat := unsignedMarked_hexWord w.toNat_lt
  have hhead : (hexWord w.toNat).head? ≠ some 0x2D := by
    show some (0x30 : UInt8) ≠ some 0x2D
    decide
  have hsigned : signedMarked 64 (hexWord w.toNat) = _ := signedBy_nonneg hhead rfl hread
  unfold readWord
  by_cases hlarge : Nat.pow 2 (64 - 1) ≤ w.toNat
  · rw [hsigned, if_pos hlarge]
    show (readUnsigned 64 (hexWord w.toNat)).map UInt64.ofNat = .ok w
    rw [readUnsigned, hread]
    show Except.ok (UInt64.ofNat w.toNat) = .ok w
    rw [UInt64.ofNat_toNat]
  · rw [hsigned, if_neg hlarge]
    show Except.ok (Int64.ofInt w.toNat).toUInt64 = .ok w
    rw [Int64.ofInt_eq_ofNat]
    show Except.ok (UInt64.ofNat w.toNat) = .ok w
    rw [UInt64.ofNat_toNat]

/-! ## Labels -/

/-- Leading zeros add nothing. -/
theorem readDigits_zeros (limit count : Nat) : readDigits 16 limit true 0 (zeros count) = .ok 0 := by
  induction count with
  | zero => rfl
  | succ count ih => exact ih

/-- A padded hexadecimal number is read back. -/
theorem readDigits_hexPadded {limit n : Nat} (hn : n ≤ limit) (width : Nat) :
    readDigits 16 limit true 0 (hexPadded width n) = .ok n := by
  have hsign : ¬(n : Int) < 0 := by omega
  rw [hexPadded, if_neg hsign, Int.natAbs_natCast, padZero, readDigits_append, readDigits_zeros]
  exact readDigits_upper_hex true hn

/-- Different addresses have different labels. -/
theorem labelOf_injective {a b : Nat} (h : labelOf a = labelOf b) : a = b := by
  have hdigits : hexPadded 4 (a : Int) = hexPadded 4 (b : Int) := List.append_cancel_left h
  have ha := readDigits_hexPadded (Nat.le_max_left a b) 4
  have hb := readDigits_hexPadded (Nat.le_max_right a b) 4
  rw [hdigits, hb] at ha
  exact (Except.ok.inj ha).symm

/-- A label is a name. -/
theorem isName_labelOf (n : Nat) : isName (labelOf n) = true := by
  have hdigits : ∀ b ∈ hexPadded 4 (n : Int), inName b = true := by
    intro b hb
    have hsign : ¬(n : Int) < 0 := by omega
    rw [hexPadded, if_neg hsign, padZero] at hb
    rcases List.mem_append.1 hb with hb | hb
    · rw [List.eq_of_mem_replicate hb]
      rfl
    · exact forall_mem_upper_hex (P := fun b => inName b = true) (by decide) n b hb
  exact isName_cons (show startsName 0x4C = true from rfl) hdigits

end Listing

end TickScript
