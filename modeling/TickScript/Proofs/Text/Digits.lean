import Mathlib.Algebra.Order.Ring.Int
import Mathlib.Data.List.TakeWhile
import TickScript.Text.Basic

/-!
# Runs of bytes and digits

Numbers are written digit by digit from the front and read from the front, so what holds of their
texts is shown by putting one digit behind the others. A run of bytes of a class ends where a byte of
another class follows.

The two directions of this meet in `toDigits_induction`: numerals are made by division, from the
last digit to the first, and read by multiplication, from the first to the last.
-/

namespace TickScript.Text

/-- A byte of a class is none of the bytes outside. -/
theorem ne_of_class {p : UInt8 → Bool} {b c : UInt8} (hb : p b = true) (hc : p c = false) : b ≠ c := by
  rintro rfl
  rw [hb] at hc
  cases hc

/-- A run of bytes of a class ends where a byte of another class follows. -/
theorem takeWhile_append_stop {p : UInt8 → Bool} {w rest : Text} (hw : ∀ b ∈ w, p b = true)
    (hrest : ∀ b ∈ rest.head?, p b = false) : (w ++ rest).takeWhile p = w := by
  rw [List.takeWhile_append_of_pos hw]
  cases rest with
  | nil => simp
  | cons b rest => simp [hrest b rfl]

/-! ## Digits -/

/-- What holds of one digit and is kept when a digit is put behind others holds of every numeral. -/
theorem toDigits_induction (base : Nat) (hbase : 1 < base) {motive : Nat → List Char → Prop}
    (small : ∀ n, n < base → motive n [n.digitChar])
    (large : ∀ n digits, base ≤ n → motive (n / base) digits →
      motive n (digits ++ [(n % base).digitChar])) (n : Nat) : motive n (Nat.toDigits base n) := by
  induction n using Nat.strongRecOn with
  | ind n ih =>
      by_cases hn : n < base
      · rw [Nat.toDigits_of_lt_base hn]
        exact small n hn
      · rw [Nat.toDigits_of_base_le hbase (Nat.le_of_not_lt hn)]
        have hless : n / base < n := Nat.div_lt_self (by omega) hbase
        exact large n _ (Nat.le_of_not_lt hn) (ih (n / base) hless)

theorem mem_toDigits {base : Nat} (hbase : 1 < base) {n : Nat} {c : Char}
    (h : c ∈ Nat.toDigits base n) : ∃ d, d < base ∧ c = d.digitChar := by
  revert h
  apply toDigits_induction base hbase
    (motive := fun _ digits => c ∈ digits → ∃ d, d < base ∧ c = d.digitChar)
  · intro n hn h
    exact ⟨n, hn, List.mem_singleton.1 h⟩
  · intro n digits _ ih h
    rcases List.mem_append.1 h with h | h
    · exact ih h
    · exact ⟨n % base, Nat.mod_lt n (by omega), List.mem_singleton.1 h⟩

theorem ofNat_ne_nil (n : Nat) : ofNat n ≠ [] := by
  intro h
  have hlength : 0 < (Nat.toDigits 10 n).length := Nat.length_toDigits_pos
  rw [List.map_eq_nil_iff.1 h] at hlength
  exact Nat.lt_irrefl 0 hlength

theorem hex_ne_nil (n : Nat) : hex n ≠ [] := by
  intro h
  have hlength : 0 < (Nat.toDigits 16 n).length := Nat.length_toDigits_pos
  rw [List.map_eq_nil_iff.1 h] at hlength
  exact Nat.lt_irrefl 0 hlength

/-- What holds of the ten digits holds of the bytes of a decimal number. -/
theorem forall_mem_ofNat {P : UInt8 → Prop} (h : ∀ d, d < 10 → P (byte d.digitChar)) (n : Nat) :
    ∀ b ∈ ofNat n, P b := by
  intro b hb
  obtain ⟨c, hc, rfl⟩ := List.mem_map.1 hb
  obtain ⟨d, hd, rfl⟩ := mem_toDigits (by decide) hc
  exact h d hd

/-- What holds of the sixteen digits in upper case holds of the bytes of a hexadecimal number. -/
theorem forall_mem_upper_hex {P : UInt8 → Prop} (h : ∀ d, d < 16 → P (upperByte (byte d.digitChar)))
    (n : Nat) : ∀ b ∈ upper (hex n), P b := by
  intro b hb
  obtain ⟨b', hb', rfl⟩ := List.mem_map.1 hb
  obtain ⟨c, hc, rfl⟩ := List.mem_map.1 hb'
  obtain ⟨d, hd, rfl⟩ := mem_toDigits (by decide) hc
  exact h d hd

theorem isDigit_of_mem_ofNat {n : Nat} {b : UInt8} (h : b ∈ ofNat n) : isDigit b = true :=
  forall_mem_ofNat (P := fun b => isDigit b = true) (by decide) n b h

/-- Only zero is written with a zero in front. -/
theorem exists_head_ofNat {n : Nat} (h : n ≠ 0) : ∃ b t, ofNat n = b :: t ∧ b ≠ 0x30 := by
  revert h
  apply toDigits_induction 10 (by decide)
    (motive := fun n digits => n ≠ 0 → ∃ b t, digits.map byte = b :: t ∧ b ≠ 0x30)
  · intro n hn hne
    have hall : ∀ d, d < 10 → d ≠ 0 → byte d.digitChar ≠ 0x30 := by decide
    exact ⟨byte n.digitChar, [], rfl, hall n hn hne⟩
  · intro n digits hn ih _
    have hdiv : n / 10 ≠ 0 := by omega
    obtain ⟨b, t, hdigits, hb⟩ := ih hdiv
    exact ⟨b, t ++ [byte (n % 10).digitChar], by simp [hdigits], hb⟩

/-! ## Widths -/

theorem length_ofNat_le {n k : Nat} (hk : 0 < k) (h : n < 10 ^ k) : (ofNat n).length ≤ k := by
  simpa [ofNat] using (Nat.length_toDigits_le_iff (by decide) hk).mpr h

theorem length_ofInt_le {n : Int} {k : Nat} (hk : 0 < k) (h : n.natAbs < 10 ^ k) :
    (ofInt n).length ≤ k + 1 := by
  have hdigits := length_ofNat_le hk h
  unfold ofInt
  split <;> simp <;> omega

end TickScript.Text
