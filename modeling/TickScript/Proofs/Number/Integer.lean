import TickScript.Number.Integer
import TickScript.Proofs.Text.Digits

/-!
# Integers are read back

A number without a mark never starts with a zero, so it is not taken for an octal one, and a
hexadecimal number keeps its mark. A signed number is its magnitude behind its sign, as long as that
is in range.

Only what is written is read back here; which numerals are accepted at all is said in
`Proofs.Listing.Numeral`. The limit in the reading lemmas is a parameter, since numbers of 8, 63 and
64 bits are read by the same function.
-/

namespace TickScript.Number

open Text

/-! ## Reading digits -/

/-- Digits are read one after the other, and the first that is out of range ends the reading. -/
theorem readDigits_append (base limit : Nat) (skip : Bool) (value : Nat) (s t : Text) :
    readDigits base limit skip value (s ++ t)
      = (readDigits base limit skip value s).bind (readDigits base limit skip · t) := by
  induction s generalizing value with
  | nil => rfl
  | cons b s ih =>
      simp only [List.cons_append, readDigits]
      split
      · exact ih value
      · split
        · rfl
        · split
          · rfl
          · split
            · rfl
            · exact ih _

/-- The digits of a number in range are read as the number. -/
theorem readDigits_toDigits {base limit : Nat} (hbase : 1 < base) (skip : Bool) (f : UInt8 → UInt8)
    (hdigit : ∀ d, d < base →
      f (byte d.digitChar) ≠ 0x5F ∧ digit? (f (byte d.digitChar)) = some d)
    {n : Nat} (hn : n ≤ limit) :
    readDigits base limit skip 0 ((Nat.toDigits base n).map (f ∘ byte)) = .ok n := by
  have hone (value d : Nat) (hd : d < base) (hlimit : value * base + d ≤ limit) :
      readDigits base limit skip value [f (byte d.digitChar)] = .ok (value * base + d) := by
    obtain ⟨hne, hvalue⟩ := hdigit d hd
    have hbelow : ¬base ≤ d := by omega
    have hinside : ¬limit < value * base + d := by omega
    simp [readDigits, hne, hvalue, hbelow, hinside]
  revert hn
  apply toDigits_induction base hbase (motive := fun n digits => n ≤ limit →
    readDigits base limit skip 0 (digits.map (f ∘ byte)) = .ok n)
  · intro n hn hlimit
    simpa using hone 0 n hn (by omega)
  · intro n digits _ ih hlimit
    have hsplit : n / base * base + n % base = n := by
      rw [Nat.mul_comm]
      exact Nat.div_add_mod n base
    have hdiv : n / base ≤ n := Nat.div_le_self n base
    rw [List.map_append, readDigits_append, ih (by omega)]
    show readDigits base limit skip (n / base) [f (byte (n % base).digitChar)] = .ok n
    rw [hone (n / base) (n % base) (Nat.mod_lt n (by omega)) (by omega), hsplit]

/-- A decimal numeral within the limit is read back. -/
theorem readDigits_ofNat {limit n : Nat} (skip : Bool) (hn : n ≤ limit) :
    readDigits 10 limit skip 0 (ofNat n) = .ok n :=
  readDigits_toDigits (by decide) skip id (by decide) hn

/-- A hexadecimal one too, in capitals. -/
theorem readDigits_upper_hex {limit n : Nat} (skip : Bool) (hn : n ≤ limit) :
    readDigits 16 limit skip 0 (upper (hex n)) = .ok n := by
  rw [upper, hex, List.map_map]
  exact readDigits_toDigits (by decide) skip upperByte (by decide) hn

/-! ## Numbers with and without a mark -/

theorem markedBase_of_ne {b : UInt8} (hb : b ≠ 0x30) (t : Text) : markedBase (b :: t) = (10, b :: t) := by
  unfold markedBase
  split
  · next heq => exact absurd (List.cons.inj heq).1 hb
  · next heq => exact absurd (List.cons.inj heq).1 hb
  · rfl

/-- Without underscores the mark alone decides. -/
theorem unsignedMarked_eq {bits base : Nat} {t digits : Text} (hne : t ≠ [])
    (hmark : markedBase t = (base, digits)) (hplain : 0x5F ∉ digits) :
    unsignedMarked bits t = readDigits base (Nat.pow 2 bits - 1) true 0 digits := by
  simp only [unsignedMarked, hmark, List.isEmpty_iff, hne, if_false, bind, Except.bind]
  cases readDigits base (Nat.pow 2 bits - 1) true 0 digits with
  | error e => rfl
  | ok value =>
      simp only [List.contains_eq_mem, hplain, decide_false, Bool.false_and, Bool.false_eq_true, if_false]
      rfl

/-- A numeral does not begin with a zero, so it is taken for decimal. -/
theorem unsignedMarked_ofNat {bits n : Nat} (hn : n < 2 ^ bits) :
    unsignedMarked bits (ofNat n) = .ok n := by
  have hplain : 0x5F ∉ ofNat n := by
    intro h
    exact absurd (isDigit_of_mem_ofNat h) (by decide)
  rcases Nat.eq_zero_or_pos n with rfl | hpos
  · -- a lone zero is the mark of an octal number that has no digits
    exact unsignedMarked_eq (ofNat_ne_nil 0) (show markedBase (ofNat 0) = (8, []) from rfl) (by simp)
  · have hmark : markedBase (ofNat n) = (10, ofNat n) := by
      obtain ⟨b, t, hcons, hb⟩ := exists_head_ofNat (Nat.pos_iff_ne_zero.1 hpos)
      rw [hcons]
      exact markedBase_of_ne hb t
    rw [unsignedMarked_eq (ofNat_ne_nil n) hmark hplain]
    exact readDigits_ofNat true (Nat.le_sub_one_of_lt hn)

/-- A hexadecimal word as listings write it. -/
def hexWord (n : Nat) : Text := "0x" ++ upper (hex n)

/-- The mark of the base is taken off. -/
theorem unsignedMarked_hexWord {bits n : Nat} (hn : n < 2 ^ bits) :
    unsignedMarked bits (hexWord n) = .ok n := by
  have hplain : 0x5F ∉ upper (hex n) := by
    intro h
    exact forall_mem_upper_hex (P := (· ≠ 0x5F)) (by decide) n 0x5F h rfl
  have hmark : markedBase (hexWord n) = (16, upper (hex n)) := by
    obtain ⟨c, t, hct⟩ := List.exists_cons_of_ne_nil (mt List.map_eq_nil_iff.1 (hex_ne_nil n))
    have hct : upper (hex n) = c :: t := hct
    rw [hexWord, hct]
    rfl
  rw [unsignedMarked_eq (by simp [hexWord, Text.ofString]) hmark hplain]
  exact readDigits_upper_hex true (Nat.le_sub_one_of_lt hn)

/-! ## Signed numbers -/

/-- A signed number is its magnitude, if that is in range. -/
theorem signedBy_nonneg {magnitude : Text → Except Fault Nat} {bits n : Nat} {t : Text}
    (hsign : t.head? ≠ some 0x2D) (hdrop : dropSign t = t) (hread : magnitude t = .ok n) :
    signedBy magnitude bits t = if Nat.pow 2 (bits - 1) ≤ n
      then .error (.outOfRange (Nat.pow 2 (bits - 1) - 1)) else .ok n := by
  have hnegative : (t.head? == some 0x2D) = false := by simpa using hsign
  simp only [signedBy, hdrop, hread, hnegative, Bool.false_eq_true, if_false]

theorem dropSign_of_head {t : Text} (hminus : t.head? ≠ some 0x2D) (hplus : t.head? ≠ some 0x2B) :
    dropSign t = t := by
  unfold dropSign
  split
  · simp at hminus
  · simp at hplus
  · rfl

theorem head_ofNat_ne {n : Nat} {b : UInt8} (hb : isDigit b = false) : (ofNat n).head? ≠ some b := by
  intro h
  rw [isDigit_of_mem_ofNat (List.mem_of_head? h)] at hb
  cases hb

/-- A signed number is read back when its magnitude is. -/
theorem signedBy_ofInt {magnitude : Text → Except Fault Nat} {n : Int} (hlow : -2 ^ 63 ≤ n)
    (hhigh : n < 2 ^ 63) (hread : magnitude (ofNat n.natAbs) = .ok n.natAbs) :
    signedBy magnitude 64 (ofInt n) = .ok n := by
  by_cases hn : n < 0
  · have hbound : ¬Nat.pow 2 63 < n.natAbs := by
      have hpow : Nat.pow 2 63 = 2 ^ 63 := rfl
      omega
    have hback : -(n.natAbs : Int) = n := by omega
    simp only [signedBy, ofInt, hn, if_true, dropSign, hread, List.head?_cons, BEq.rfl]
    rw [if_neg hbound, hback]
  · have hbound : ¬Nat.pow 2 63 ≤ n.natAbs := by
      have hpow : Nat.pow 2 63 = 2 ^ 63 := rfl
      omega
    have hback : (n.natAbs : Int) = n := by omega
    have hminus : (ofNat n.natAbs).head? ≠ some 0x2D := head_ofNat_ne (by decide)
    have hplus : (ofNat n.natAbs).head? ≠ some 0x2B := head_ofNat_ne (by decide)
    rw [ofInt, if_neg hn, signedBy_nonneg hminus (dropSign_of_head hminus hplus) hread,
      if_neg hbound, hback]

/-- Within 64 bits an integer is read back with its sign. -/
theorem signedMarked_ofInt {n : Int} (hlow : -2 ^ 63 ≤ n) (hhigh : n < 2 ^ 63) :
    signedMarked 64 (ofInt n) = .ok n :=
  signedBy_ofInt hlow hhigh (unsignedMarked_ofNat (by omega))

theorem signedDecimal_ofInt {n : Int} (hlow : -2 ^ 63 ≤ n) (hhigh : n < 2 ^ 63) :
    signedDecimal 64 (ofInt n) = .ok n := by
  refine signedBy_ofInt hlow hhigh ?_
  rw [unsignedDecimal, if_neg (by simpa using ofNat_ne_nil n.natAbs)]
  have hpow : Nat.pow 2 64 = 2 ^ 64 := rfl
  exact readDigits_ofNat false (by omega)

end TickScript.Number
