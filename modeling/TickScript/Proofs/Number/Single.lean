import TickScript.Expr.Literal
import TickScript.Proofs.Number.Rounding
import TickScript.Proofs.Rendering
import TickScript.Proofs.Value

/-!
# Numbers in the 32-bit format

A float is stored in 32 bits, and some of the bit patterns are no numbers. Rounding to the format ends
in such a pattern only for what is not finite or too large: a number that the format reaches stays
finite when it is stored. Decimal literals are checked against the largest number of the format, and
an integer of 64 bits is always in reach, so the floats that literals store are finite.

Three sources of stored floats are looked at: literals, integers that are converted, and bits that
were stored before. In each case the bound on the number is in terms of the largest single, which is
a power of two less one unit, so `staysFinite_single` is the only place where rounding up at the
edge of the format has to be excluded.
-/

namespace TickScript.Number.Real

/-- The number is finite and, rounded to the format, stays so. -/
def StaysFinite (f : Format) (x : Real) : Prop :=
  ∃ negative m e, x.roundTo f = .finite negative m e ∧ m < 2 ^ f.precision ∧ e ≤ f.greatestExponent

theorem leastExponent_single : Format.single.leastExponent = -149 := by decide

theorem greatestExponent_single : Format.single.greatestExponent = 104 := by decide

/-- What is at most the largest single stays finite. -/
theorem staysFinite_single {negative : Bool} {m : Nat} {e : Int}
    (h : (m : ℚ) * 2 ^ e ≤ (2 ^ 24 - 1) * 2 ^ 104) :
    StaysFinite .single (.finite negative m e) := by
  obtain ⟨m', e', hround, hm, he⟩ :=
    roundTo_finite (f := .single) negative (by decide) (g := 104) (by decide) (by decide)
      (by decide) (by exact_mod_cast h)
  exact ⟨negative, m', e', hround, hm, he⟩

/-! ## What literals store -/

/-- A number whose unit is finer than its exponent is a whole number of units. -/
theorem unitsOf_ratio {m : Nat} {e unit : Int} (h : unit ≤ e) :
    ((unitsOf false m e unit : Int) : ℚ) * 2 ^ unit = m * 2 ^ e := by
  obtain ⟨k, hk⟩ : ∃ k : Nat, e = unit + k := ⟨(e - unit).toNat, by omega⟩
  have hshift : (e - unit).toNat = k := by omega
  simp only [unitsOf, hshift, Nat.shiftLeft_eq, Bool.false_eq_true, if_false]
  push_cast
  rw [hk, zpow_add₀ two_ne_zero, zpow_natCast]
  ring

/-- A number that does not lie beyond the format stays finite in it. -/
theorem staysFinite_of_exceedsSingle {negative : Bool} {m : Nat} {e : Int}
    (h : Expr.exceedsSingle (.finite negative m e) = false) :
    StaysFinite .single (.finite negative m e) := by
  apply staysFinite_single
  have hle : unitsOf false m e (min e 104) ≤ unitsOf false 0xFFFFFF 104 (min e 104) := by
    by_contra hless
    have hgreater : compare (unitsOf false m e (min e 104))
        (unitsOf false 0xFFFFFF 104 (min e 104)) = .gt := by
      rw [compare_gt_iff_gt]
      exact not_le.1 hless
    simp only [Expr.exceedsSingle, Expr.largestSingle, compare?, hgreater] at h
    cases h
  have hunit : (0 : ℚ) < 2 ^ min e 104 := by positivity
  calc (m : ℚ) * 2 ^ e = (unitsOf false m e (min e 104) : Int) * 2 ^ min e 104 :=
        (unitsOf_ratio (min_le_left e 104)).symm
    _ ≤ (unitsOf false 0xFFFFFF 104 (min e 104) : Int) * 2 ^ min e 104 := by
        gcongr
    _ = (2 ^ 24 - 1) * 2 ^ 104 := by
        rw [unitsOf_ratio (min_le_right e 104)]
        norm_num

/-- An integer of 64 bits, rounded to the 64-bit format, stays finite in the 32-bit one. -/
theorem staysFinite_ofInt {n : Int} (h : n.natAbs ≤ 2 ^ 63) :
    StaysFinite .single ((ofInt n).roundTo .double) := by
  have hsize : (n.natAbs : ℚ) * 2 ^ (0 : Int) ≤ (2 ^ 53 - 1) * 2 ^ (12 : Int) := by
    calc (n.natAbs : ℚ) * 2 ^ (0 : Int) ≤ 2 ^ 63 := by
          rw [zpow_zero, mul_one]
          exact_mod_cast h
      _ ≤ (2 ^ 53 - 1) * 2 ^ (12 : Int) := by norm_num
  obtain ⟨m, e, hround, hm, he⟩ :=
    roundTo_finite (f := .double) (n < 0) (by decide) (g := 12) (by decide) (by decide) (by decide)
      hsize
  rw [ofInt, hround]
  apply staysFinite_single
  calc (m : ℚ) * 2 ^ e ≤ 2 ^ 53 * 2 ^ (12 : Int) := by
        gcongr
        · exact_mod_cast hm.le
        · exact one_le_two
    _ ≤ (2 ^ 24 - 1) * 2 ^ 104 := by norm_num

/-! ## Stored numbers -/

/-- The stored bits of a finite number: its sign, an exponent field below the largest pattern, and its
fraction. -/
theorem toBits_fields {x : Real} (h : x.StaysFinite .single) :
    x.toBits .single < 2 ^ 32 ∧ x.toBits .single / 2 ^ 23 % 2 ^ 8 < 255 := by
  obtain ⟨negative, m, e, hround, hm, he⟩ := h
  have hm : m < 2 ^ 24 := hm
  have he : e ≤ 104 := greatestExponent_single ▸ he
  have hfraction : Nat.pow 2 (Format.single.precision - 1) = 2 ^ 23 := rfl
  have hshift : (2 : Nat) ^ (Format.single.precision - 1) = 2 ^ 23 := rfl
  have hsign : Format.single.precision - 1 + Format.single.exponentBits = 31 := rfl
  unfold toBits
  simp only [hround, leastExponent_single, Nat.shiftLeft_eq, hfraction, hshift, hsign]
  cases negative <;> simp only [if_true, if_false, Bool.false_eq_true] <;> split <;> omega

/-- What a number that stays finite is stored as is a finite number. -/
theorem ofBits_toBits {x : Real} (h : x.StaysFinite .single) :
    ∃ negative m e, ofBits .single (x.toBits .single) = .finite negative m e := by
  have hfield : (x.toBits .single >>> (Format.single.precision - 1)
      % Nat.pow 2 Format.single.exponentBits == Nat.pow 2 Format.single.exponentBits - 1) = false := by
    rw [beq_eq_false_iff_ne, Nat.shiftRight_eq_div_pow]
    exact Nat.ne_of_lt (toBits_fields h).2
  unfold ofBits
  simp only [hfield, Bool.false_eq_true, if_false]
  split <;> exact ⟨_, _, _, rfl⟩

/-- A stored number that is finite stays so. -/
theorem staysFinite_ofBits {bits m : Nat} {negative : Bool} {e : Int}
    (h : ofBits .single bits = .finite negative m e) : StaysFinite .single (.finite negative m e) := by
  obtain ⟨-, he, hm⟩ := ofBits_single h
  apply staysFinite_single
  have hm : (m : ℚ) ≤ 2 ^ 24 - 1 := by
    have hm : m + 1 ≤ 2 ^ 24 := hm
    have hcast : ((m + 1 : Nat) : ℚ) ≤ (2 ^ 24 : Nat) := by exact_mod_cast hm
    push_cast at hcast
    linarith
  have hpow : (2 : ℚ) ^ e ≤ 2 ^ (104 : Int) := zpow_le_zpow_right₀ one_le_two he
  calc (m : ℚ) * 2 ^ e ≤ (2 ^ 24 - 1) * 2 ^ (104 : Int) := by gcongr
    _ = (2 ^ 24 - 1) * 2 ^ 104 := by norm_num

end TickScript.Number.Real

namespace TickScript

open Number

/-- A float value of a number that stays finite is a finite number that stays so. -/
theorem Value.finite_ofReal {x : Number.Real} (h : x.StaysFinite .single) :
    ∃ negative m e, (ofReal x).singleReal = .finite negative m e := by
  have hraw : (ofReal x).raw = x.toBits .single :=
    raw_littleEndian .float (by decide) (Real.toBits_fields h).1
  have hbits : x.toBits .single % 0x100000000 = x.toBits .single :=
    Nat.mod_eq_of_lt (Real.toBits_fields h).1
  rw [singleReal, hraw, hbits]
  exact Real.ofBits_toBits h

end TickScript
