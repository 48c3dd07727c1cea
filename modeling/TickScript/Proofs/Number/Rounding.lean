import Mathlib.Algebra.Order.Field.Power
import Mathlib.Tactic.FieldSimp
import Mathlib.Tactic.Linarith
import Mathlib.Tactic.Positivity
import Mathlib.Tactic.Ring
import TickScript.Number.Binary

/-!
# Where rounding ends up

`round` works on a numerator and a denominator, both scaled until the quotient counts units of the
last place. What it does is a matter of the ratio alone: the exponent of the leading bit is the power
of two at or below the ratio, and the significand is at most what the ratio allows. So a ratio that a
format reaches is rounded to a finite number of that format, and its exponent is known in advance
when the ratio is.

The definitions compare products of natural numbers and never form the ratio; the lemmas state the
same comparisons about the ratio as a rational number. The bounds are those that are used later,
that a number is finite and that its exponent is the expected one; how close the result is to the
ratio is not needed anywhere.
-/

namespace TickScript.Number.Real

variable {num den : Nat}

/-! ## Scaling -/

/-- Scaling divides the ratio by a power of two. -/
theorem scaled_ratio (num : Nat) (hden : den ≠ 0) (e : Int) : (scaled num den e).2 ≠ 0
    ∧ ((scaled num den e).1 : ℚ) / (scaled num den e).2 = num / den / 2 ^ e := by
  have hden' : (den : ℚ) ≠ 0 := by exact_mod_cast hden
  unfold scaled
  by_cases he : e < 0
  · obtain ⟨k, rfl⟩ : ∃ k : Nat, e = -k := ⟨e.natAbs, by omega⟩
    rw [if_pos he, Int.natAbs_neg, Int.natAbs_natCast, Nat.shiftLeft_eq]
    refine ⟨hden, ?_⟩
    push_cast
    rw [zpow_neg, zpow_natCast]
    field_simp
  · obtain ⟨k, rfl⟩ : ∃ k : Nat, e = k := ⟨e.natAbs, by omega⟩
    rw [if_neg he, Int.natAbs_natCast, Nat.shiftLeft_eq]
    refine ⟨Nat.mul_ne_zero hden (by positivity), ?_⟩
    push_cast
    rw [zpow_natCast]
    field_simp

/-- Whether the scaled ratio reaches one is whether the ratio reaches the power of two. -/
theorem scaled_le_iff (num : Nat) (hden : den ≠ 0) (e : Int) :
    (scaled num den e).2 ≤ (scaled num den e).1 ↔ (2 : ℚ) ^ e ≤ num / den := by
  obtain ⟨hpos, hratio⟩ := scaled_ratio num hden e
  have hpow : (0 : ℚ) < 2 ^ e := by positivity
  have hpos : (0 : ℚ) < (scaled num den e).2 := by exact_mod_cast Nat.pos_of_ne_zero hpos
  calc (scaled num den e).2 ≤ (scaled num den e).1
      ↔ ((scaled num den e).2 : ℚ) ≤ (scaled num den e).1 := by exact_mod_cast Iff.rfl
    _ ↔ (1 : ℚ) ≤ (scaled num den e).1 / (scaled num den e).2 := by rw [le_div_iff₀ hpos, one_mul]
    _ ↔ (2 : ℚ) ^ e ≤ num / den := by rw [hratio, le_div_iff₀ hpow, one_mul]

/-! ## The leading bit -/

/-- The exponents of the leading bits of two numbers tell that of their ratio up to one. -/
theorem log2_ratio (hnum : num ≠ 0) (hden : den ≠ 0) :
    (2 : ℚ) ^ ((num.log2 : Int) - den.log2 - 1) ≤ num / den
      ∧ (num / den : ℚ) < 2 ^ ((num.log2 : Int) - den.log2 + 1) := by
  have hnumLow : (2 : ℚ) ^ (num.log2 : Int) ≤ num := by exact_mod_cast Nat.log2_self_le hnum
  have hnumHigh : (num : ℚ) < 2 ^ ((num.log2 : Int) + 1) := by
    exact_mod_cast (Nat.lt_log2_self (n := num))
  have hdenLow : (2 : ℚ) ^ (den.log2 : Int) ≤ den := by exact_mod_cast Nat.log2_self_le hden
  have hdenHigh : (den : ℚ) < 2 ^ ((den.log2 : Int) + 1) := by
    exact_mod_cast (Nat.lt_log2_self (n := den))
  have hpos : (0 : ℚ) < den := by exact_mod_cast Nat.pos_of_ne_zero hden
  constructor
  · rw [le_div_iff₀ hpos]
    calc (2 : ℚ) ^ ((num.log2 : Int) - den.log2 - 1) * den
        ≤ 2 ^ ((num.log2 : Int) - den.log2 - 1) * 2 ^ ((den.log2 : Int) + 1) := by gcongr
      _ = 2 ^ (num.log2 : Int) := by
          rw [← zpow_add₀ two_ne_zero]
          congr 1
          omega
      _ ≤ num := hnumLow
  · rw [div_lt_iff₀ hpos]
    calc (num : ℚ) < 2 ^ ((num.log2 : Int) + 1) := hnumHigh
      _ = 2 ^ ((num.log2 : Int) - den.log2 + 1) * 2 ^ (den.log2 : Int) := by
          rw [← zpow_add₀ two_ne_zero]
          congr 1
          omega
      _ ≤ 2 ^ ((num.log2 : Int) - den.log2 + 1) * den := by gcongr

/-- The leading bit of a ratio is the power of two at or below it. -/
theorem leadingExponent_spec (hnum : num ≠ 0) (hden : den ≠ 0) :
    (2 : ℚ) ^ leadingExponent num den ≤ num / den
      ∧ (num / den : ℚ) < 2 ^ (leadingExponent num den + 1) := by
  obtain ⟨hlow, hhigh⟩ := log2_ratio hnum hden
  unfold leadingExponent
  simp only
  split
  · next h => exact ⟨(scaled_le_iff num hden _).1 h, hhigh⟩
  · next h =>
      have hbelow := not_le.1 (mt (scaled_le_iff num hden _).2 h)
      refine ⟨hlow, ?_⟩
      rwa [sub_add_cancel]

/-! ## The significand -/

/-- Rounding does not pass a whole number. -/
theorem nearest_le_of_ratio {n d k : Nat} (hd : d ≠ 0) (h : (n : ℚ) / d ≤ k) : nearest n d ≤ k := by
  have hpos : 0 < d := Nat.pos_of_ne_zero hd
  have hle : n ≤ k * d := by
    have hpos : (0 : ℚ) < d := by exact_mod_cast hpos
    rw [div_le_iff₀ hpos] at h
    exact_mod_cast h
  have hquotient : n / d ≤ k := Nat.div_le_of_le_mul (by rwa [Nat.mul_comm])
  unfold nearest
  simp only
  split
  · next hup =>
      -- what is rounded up is not whole, so it is below the next whole number
      have hrest : n % d ≠ 0 := by
        intro hzero
        rw [hzero] at hup
        simp only [Nat.mul_zero, Nat.not_lt_zero, decide_false, Bool.false_or, Bool.and_eq_true,
          beq_iff_eq] at hup
        omega
      by_contra hmore
      have hquotient : n / d = k := by omega
      have hsplit := Nat.div_add_mod n d
      rw [hquotient, Nat.mul_comm] at hsplit
      omega
  · exact hquotient

/-- A ratio within what a format can hold at an exponent `g` is rounded to a finite number with a
significand of the format and an exponent of at most `g`. -/
theorem round_finite {f : Format} (negative : Bool) (hden : den ≠ 0) (hprecision : 0 < f.precision)
    {g : Int} (hzero : 0 ≤ g) (hleast : f.leastExponent ≤ g) (hgreatest : g ≤ f.greatestExponent)
    (h : (num / den : ℚ) ≤ (2 ^ f.precision - 1) * 2 ^ g) :
    ∃ m e, round f negative num den = .finite negative m e ∧ m < 2 ^ f.precision ∧ e ≤ g := by
  have htwo : (0 : ℚ) < 2 ^ g := by positivity
  unfold round
  by_cases hnum : num = 0
  · exact ⟨0, 0, by rw [if_pos (by simpa using hnum)], by positivity, hzero⟩
  rw [if_neg (by simpa using hnum)]
  simp only
  obtain ⟨hlow, hhigh⟩ := leadingExponent_spec hnum hden
  generalize leadingExponent num den = lead at hlow hhigh
  -- the leading bit is below the bound, which is a number of full precision
  have hlead : lead < f.precision + g := by
    have hbelow : (2 : ℚ) ^ lead < 2 ^ ((f.precision : Int) + g) := by
      calc (2 : ℚ) ^ lead ≤ num / den := hlow
        _ ≤ (2 ^ f.precision - 1) * 2 ^ g := h
        _ < 2 ^ f.precision * 2 ^ g := by gcongr; linarith
        _ = 2 ^ ((f.precision : Int) + g) := by rw [zpow_add₀ two_ne_zero, zpow_natCast]
    exact (zpow_lt_zpow_iff_right₀ one_lt_two).1 hbelow
  generalize hexponent : max (lead - ((f.precision - 1 : Nat) : Int)) f.leastExponent = e
  have hg : e ≤ g := by omega
  have hunit : lead + 1 ≤ f.precision + e := by omega
  -- in units of the last place the number has at most `precision` bits
  obtain ⟨hd, hratio⟩ := scaled_ratio num hden e
  have hpos : (0 : ℚ) < 2 ^ e := by positivity
  have hm : nearest (scaled num den e).1 (scaled num den e).2 ≤ 2 ^ f.precision := by
    apply nearest_le_of_ratio hd
    rw [hratio, div_le_iff₀ hpos]
    calc (num / den : ℚ) ≤ 2 ^ (lead + 1) := hhigh.le
      _ ≤ 2 ^ ((f.precision : Int) + e) := zpow_le_zpow_right₀ one_le_two hunit
      _ = ((2 ^ f.precision : Nat) : ℚ) * 2 ^ e := by
          rw [zpow_add₀ two_ne_zero, zpow_natCast]
          push_cast
          rfl
  have hpow : Nat.pow 2 f.precision = 2 ^ f.precision := rfl
  by_cases hcarry : nearest (scaled num den e).1 (scaled num den e).2 = 2 ^ f.precision
  · -- at the exponent `g` itself the ratio leaves no room for a carry
    have hroom : e < g := by
      by_contra hfull
      obtain rfl : e = g := by omega
      have hsmall : nearest (scaled num den e).1 (scaled num den e).2 ≤ 2 ^ f.precision - 1 := by
        apply nearest_le_of_ratio hd
        rw [hratio, div_le_iff₀ hpos]
        push_cast [Nat.one_le_two_pow]
        exact h
      have hone : 1 ≤ 2 ^ f.precision := Nat.one_le_two_pow
      omega
    have htop : (nearest (scaled num den e).1 (scaled num den e).2 == Nat.pow 2 f.precision) = true := by
      rw [hcarry, hpow, BEq.rfl]
    have hinside : ¬f.greatestExponent < e + 1 := by omega
    simp only [htop, if_true]
    refine ⟨2 ^ (f.precision - 1), e + 1, if_neg hinside, ?_, by omega⟩
    exact Nat.pow_lt_pow_right (by decide) (by omega)
  · have htop : (nearest (scaled num den e).1 (scaled num den e).2 == Nat.pow 2 f.precision)
        = false := by
      rw [hpow]
      simpa using hcarry
    -- without a carry the exponent is the one that was chosen
    have hinside : ¬f.greatestExponent < e := by omega
    simp only [htop, Bool.false_eq_true, if_false]
    exact ⟨_, e, if_neg hinside, by omega, hg⟩

/-! ## Numbers -/

/-- The ratio that `roundTo` rounds is the size of the number. -/
theorem roundTo_finite {f : Format} (negative : Bool) {m : Nat} {e : Int}
    (hprecision : 0 < f.precision) {g : Int} (hzero : 0 ≤ g) (hleast : f.leastExponent ≤ g)
    (hgreatest : g ≤ f.greatestExponent) (h : (m : ℚ) * 2 ^ e ≤ (2 ^ f.precision - 1) * 2 ^ g) :
    ∃ m' e', roundTo f (.finite negative m e) = .finite negative m' e' ∧ m' < 2 ^ f.precision
      ∧ e' ≤ g := by
  unfold roundTo
  by_cases he : e < 0
  · obtain ⟨k, rfl⟩ : ∃ k : Nat, e = -k := ⟨e.natAbs, by omega⟩
    simp only [if_pos he, Int.natAbs_neg, Int.natAbs_natCast, Nat.shiftLeft_eq, Nat.one_mul]
    apply round_finite negative (by positivity) hprecision hzero hleast hgreatest
    push_cast
    rwa [div_eq_mul_inv, ← zpow_natCast, ← zpow_neg]
  · obtain ⟨k, rfl⟩ : ∃ k : Nat, e = k := ⟨e.natAbs, by omega⟩
    simp only [if_neg he, Int.natAbs_natCast, Nat.shiftLeft_eq]
    apply round_finite negative one_ne_zero hprecision hzero hleast hgreatest
    push_cast
    rwa [div_one, ← zpow_natCast]

end TickScript.Number.Real
