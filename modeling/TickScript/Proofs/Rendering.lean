import Mathlib.Algebra.Order.Ring.Int
import Mathlib.Tactic.NormNum
import TickScript.Machine.OperandStack
import TickScript.Proofs.Text.Digits
import TickScript.Proofs.Word
import TickScript.Value

/-!
# How long the text of a value gets

Only strings are long. The text of any other value has a few hundred bytes at most, whatever its
data: integers have at most 64 bits, and the shortest decimal of a float has a bounded mantissa and a
bounded exponent. So a value within the limit of the operand stack stays within it when it takes
another type.

The bound only has to be below the limit of the stack by a good margin, so none of the steps is
exact. The one search, for the shortest decimal that leads back to the float, is bounded by the
number of digits that it tries at most; nothing is said about which decimal it finds.
-/

namespace TickScript

open Number

namespace Number

/-! ## Rounding -/

theorem nearest_le (n d : Nat) : Real.nearest n d ≤ n + 1 := by
  have hdiv := Nat.div_le_self n d
  unfold Real.nearest
  simp only
  split <;> omega

/-- A ratio rounded to the 32-bit format has an exponent of the format. Its significand is bounded
through the numerator, which is all that is needed of it here. -/
theorem round_single {negative s : Bool} {num den m : Nat} {e : Int}
    (h : Real.round .single negative num den = .finite s m e) :
    -149 ≤ e ∧ e ≤ 104 ∧ m ≤ num * 2 ^ 149 + 2 ^ 24 := by
  unfold Real.round at h
  split at h
  · obtain ⟨-, rfl, rfl⟩ := Real.finite.inj h
    exact ⟨by decide, by decide, Nat.zero_le _⟩
  · simp only at h
    have hleast : Format.single.leastExponent = -149 := by decide
    have hgreatest : Format.single.greatestExponent = 104 := by decide
    rw [hleast, hgreatest] at h
    generalize hexponent :
      max (Real.leadingExponent num den - ((Format.single.precision - 1 : Nat) : Int)) (-149) = e' at h
    -- the exponent is cut off at the least one of the format
    have hlow : -149 ≤ e' := hexponent ▸ le_max_right _ _
    -- so the numerator is shifted by 149 bits at most
    have hnum : (Real.scaled num den e').1 ≤ num * 2 ^ 149 := by
      unfold Real.scaled
      split
      · simp only [Nat.shiftLeft_eq]
        exact Nat.mul_le_mul_left _ (Nat.pow_le_pow_right (by decide) (by omega))
      · exact Nat.le_mul_of_pos_right _ (by positivity)
    have hnearest := nearest_le (Real.scaled num den e').1 (Real.scaled num den e').2
    split at h
    · -- rounding up to the next power of two moves the exponent by one
      next hcarry =>
        simp only at h
        split at h
        · cases h
        · obtain ⟨-, rfl, rfl⟩ := Real.finite.inj h
          refine ⟨by omega, by omega, ?_⟩
          have : Nat.pow 2 (Format.single.precision - 1) ≤ 2 ^ 24 := by decide
          omega
    · simp only at h
      split at h
      · cases h
      · obtain ⟨-, rfl, rfl⟩ := Real.finite.inj h
        exact ⟨by omega, by omega, by omega⟩

/-- What the bits of a single can stand for. -/
theorem ofBits_single {bits m : Nat} {s : Bool} {e : Int}
    (h : Real.ofBits .single bits = .finite s m e) : -149 ≤ e ∧ e ≤ 104 ∧ m < 2 ^ 24 := by
  have hleast : Format.single.leastExponent = -149 := by decide
  have hlow : bits % Nat.pow 2 (Format.single.precision - 1) < 2 ^ 23 :=
    Nat.mod_lt _ (by decide)
  have hfield : bits >>> (Format.single.precision - 1) % Nat.pow 2 Format.single.exponentBits < 2 ^ 8 :=
    Nat.mod_lt _ (by decide)
  have htop : Nat.pow 2 (Format.single.precision - 1) = 2 ^ 23 := by decide
  have hspecial : Nat.pow 2 Format.single.exponentBits - 1 = 255 := by decide
  unfold Real.ofBits at h
  simp only [hleast, hspecial, beq_iff_eq] at h
  split at h
  · split at h <;> cases h
  · split at h
    · obtain ⟨-, rfl, rfl⟩ := Real.finite.inj h
      omega
    · obtain ⟨-, rfl, rfl⟩ := Real.finite.inj h
      omega

/-- A stored float keeps its bounds when it is rounded to its own format. -/
theorem roundTo_ofBits_single {bits m : Nat} {s : Bool} {e : Int}
    (h : (Real.ofBits .single bits).roundTo .single = .finite s m e) :
    -149 ≤ e ∧ e ≤ 104 ∧ m ≤ 2 ^ 278 := by
  cases hx : Real.ofBits .single bits with
  | notANumber => simp [hx, Real.roundTo] at h
  | infinite negative => simp [hx, Real.roundTo] at h
  | finite negative m' e' =>
      obtain ⟨hlow, hhigh, hm⟩ := ofBits_single hx
      rw [hx, Real.roundTo] at h
      split at h
      · obtain ⟨h₁, h₂, h₃⟩ := round_single h
        refine ⟨h₁, h₂, h₃.trans ?_⟩
        calc m' * 2 ^ 149 + 2 ^ 24 ≤ 2 ^ 24 * 2 ^ 149 + 2 ^ 24 := by gcongr
          _ ≤ 2 ^ 278 := by decide +kernel
      · next hsign =>
          obtain ⟨h₁, h₂, h₃⟩ := round_single h
          refine ⟨h₁, h₂, h₃.trans ?_⟩
          have hnum : m' <<< e'.natAbs ≤ 2 ^ 24 * 2 ^ 104 := by
            rw [Nat.shiftLeft_eq]
            exact Nat.mul_le_mul hm.le (Nat.pow_le_pow_right (by decide) (by omega))
          calc m' <<< e'.natAbs * 2 ^ 149 + 2 ^ 24 ≤ 2 ^ 24 * 2 ^ 104 * 2 ^ 149 + 2 ^ 24 := by gcongr
            _ ≤ 2 ^ 278 := by decide +kernel

/-! ## The shortest decimal -/

/-- A decimal with a bounded text: it is not beyond `10 ^ 121`, and its last digit not far behind the
point. -/
structure DecimalDigits.Short (d : DecimalDigits) : Prop where
  mantissa : d.mantissa < 10 ^ (121 - d.exponent).toNat
  low : -70 ≤ d.exponent
  high : d.exponent ≤ 120

/-- The search for the leading digit goes up by one at a time. -/
theorem leadingDecimal_bounds (num den fuel : Nat) (guess : Int) :
    guess ≤ leadingDecimal num den fuel guess ∧ leadingDecimal num den fuel guess ≤ guess + fuel := by
  induction fuel generalizing guess with
  | zero => simp [leadingDecimal]
  | succ fuel ih =>
      have hnext := ih (guess + 1)
      simp only [leadingDecimal]
      split
      · push_cast
        omega
      · push_cast
        omega

/-- A ratio counted in units of a power of ten. -/
theorem quotient_le {num : Nat} (den : Nat) {unit : Int} (hnum : num ≤ 2 ^ 382) (hunit : unit ≤ 120) :
    (if unit < 0 then (num * Nat.pow 10 unit.natAbs, den)
        else (num, den * Nat.pow 10 unit.natAbs)).1
      / (if unit < 0 then (num * Nat.pow 10 unit.natAbs, den)
        else (num, den * Nat.pow 10 unit.natAbs)).2 ≤ 10 ^ (120 - unit).toNat := by
  have hnum : num ≤ 10 ^ 120 := hnum.trans (by decide +kernel)
  by_cases hsign : unit < 0
  · rw [if_pos hsign]
    have hpow : (120 - unit).toNat = 120 + unit.natAbs := by omega
    calc num * 10 ^ unit.natAbs / den ≤ num * 10 ^ unit.natAbs := Nat.div_le_self _ _
      _ ≤ 10 ^ 120 * 10 ^ unit.natAbs := Nat.mul_le_mul_right _ hnum
      _ = 10 ^ (120 - unit).toNat := by rw [hpow, Nat.pow_add]
  · rw [if_neg hsign]
    have hpow : 120 = unit.natAbs + (120 - unit).toNat := by omega
    calc num / (den * 10 ^ unit.natAbs) = num / den / 10 ^ unit.natAbs :=
          (Nat.div_div_eq_div_mul _ _ _).symm
      _ ≤ num / 10 ^ unit.natAbs := Nat.div_le_div_right (Nat.div_le_self _ _)
      _ ≤ 10 ^ (120 - unit).toNat := by
          apply Nat.div_le_of_le_mul
          rwa [← Nat.pow_add, ← hpow]

/-- Candidates with few digits are short. -/
theorem neighbours_short {num den count : Nat} {lead : Int} {d : DecimalDigits}
    (hnum : num ≤ 2 ^ 382) (hlow : -50 ≤ lead) (hhigh : lead ≤ 120) (hcount : count ≤ 21)
    (h : d ∈ neighbours num den lead count) : d.Short := by
  have hunit : -70 ≤ lead - ((count - 1 : Nat) : Int) ∧ lead - ((count - 1 : Nat) : Int) ≤ 120 := by
    omega
  unfold neighbours at h
  simp only at h
  generalize lead - ((count - 1 : Nat) : Int) = unit at h hunit
  -- the quotient in units of the last digit is below the bound, and so is the next number
  have hbelow := quotient_le den hnum hunit.2
  generalize (if unit < 0 then (num * Nat.pow 10 unit.natAbs, den)
      else (num, den * Nat.pow 10 unit.natAbs)) = pair at h hbelow
  have hpow : 10 ^ (121 - unit).toNat = 10 ^ (120 - unit).toNat * 10 := by
    rw [← Nat.pow_succ]
    congr 1
    omega
  have hone : 1 ≤ 10 ^ (120 - unit).toNat := Nat.one_le_pow _ _ (by decide)
  have hlow : DecimalDigits.Short ⟨pair.1 / pair.2, unit⟩ := by
    refine ⟨?_, hunit.1, hunit.2⟩
    show pair.1 / pair.2 < 10 ^ (121 - unit).toNat
    omega
  have hhigh : DecimalDigits.Short ⟨pair.1 / pair.2 + 1, unit⟩ := by
    refine ⟨?_, hunit.1, hunit.2⟩
    show pair.1 / pair.2 + 1 < 10 ^ (121 - unit).toNat
    omega
  -- the candidates are the quotient and its successor, in an order that depends on which is nearer
  split at h
  · simp at h
    exact h ▸ hlow
  · split at h
    · simp at h
      rcases h with rfl | rfl
      · exact hhigh
      · exact hlow
    · simp at h
      rcases h with rfl | rfl
      · exact hlow
      · exact hhigh

/-- The search ends with a candidate that is short, since as many digits as needed are tried. -/
theorem shortestFrom_short {f : Format} {m num den : Nat} {e lead : Int} (hnum : num ≤ 2 ^ 382)
    (hlow : -50 ≤ lead) (hhigh : lead ≤ 120) (fuel count : Nat) (hcount : fuel + count ≤ 21) :
    (shortestFrom f m e num den lead fuel count).Short := by
  induction fuel generalizing count with
  | zero =>
      unfold shortestFrom
      cases hhead : (neighbours num den lead count).head? with
      | none => exact ⟨by positivity, by decide, by decide⟩
      | some d =>
          exact neighbours_short hnum hlow hhigh (by omega) (List.mem_of_mem_head? hhead)
  | succ fuel ih =>
      unfold shortestFrom
      split
      · next d hfind =>
          exact neighbours_short hnum hlow hhigh (by omega) (List.mem_of_find?_eq_some hfind)
      · exact ih (count + 1) (by omega)

/-- The leading digit is not beyond that of `10 ^ 120`. -/
theorem DecimalDigits.Short.length_mantissa_le {d : DecimalDigits} (h : d.Short) :
    ((Text.ofNat d.mantissa).length : Int) + d.exponent ≤ 121 := by
  have hlow := h.low
  have hhigh := h.high
  have hpos : 0 < (121 - d.exponent).toNat := by omega
  have hlength := Text.length_ofNat_le hpos h.mantissa
  omega

/-- Every single has few digits in its shortest form. -/
theorem digits_short {m : Nat} {e : Int} (hm : m ≤ 2 ^ 278) (hlow : -149 ≤ e) (hhigh : e ≤ 104) :
    (digits .single m e).Short := by
  have hlog : m.log2 ≤ 278 := by
    by_cases hzero : m = 0
    · simp [hzero]
    · have := (Nat.log2_lt hzero).mpr (show m < 2 ^ 279 from lt_of_le_of_lt hm (by decide +kernel))
      omega
  have hnum : (if e < 0 then (m, 1 <<< e.natAbs) else (m <<< e.natAbs, 1)).1 ≤ 2 ^ 382 := by
    split
    · exact hm.trans (by decide +kernel)
    · rw [Nat.shiftLeft_eq]
      calc m * 2 ^ e.natAbs ≤ 2 ^ 278 * 2 ^ 104 :=
            Nat.mul_le_mul hm (Nat.pow_le_pow_right (by decide) (by omega))
        _ = 2 ^ 382 := by decide +kernel
  unfold digits
  simp only
  have hlead := leadingDecimal_bounds
    (if e < 0 then (m, 1 <<< e.natAbs) else (m <<< e.natAbs, 1)).1
    (if e < 0 then (m, 1 <<< e.natAbs) else (m <<< e.natAbs, 1)).2 6
    ((m.log2 + e) * 30103 / 100000 - 2)
  exact shortestFrom_short hnum (by omega) (by omega) 20 1 (by decide)

/-! ## Rendering -/

theorem length_stripZeros_le (t : Text) : (stripZeros t).length ≤ t.length + 1 := by
  unfold stripZeros
  split
  · simp
  · rw [List.length_reverse]
    have hle := (List.dropWhile_sublist (· == 0x30) (l := t.reverse)).length_le
    rw [List.length_reverse] at hle
    omega

/-- Without an exponent the point may stand some places away from the digits. -/
theorem length_positional_le {significant : Text} {lead : Int} (hlow : leastPositional ≤ lead)
    (hhigh : lead < positionalEnd) :
    (positional significant lead).length ≤ significant.length + 10 := by
  unfold leastPositional at hlow
  unfold positionalEnd at hhigh
  unfold positional
  split
  · have hzero : (("0." : Text)).length = 2 := rfl
    simp only [List.length_append, Text.zeros, List.length_replicate, hzero]
    omega
  · simp only
    split
    · simp [Text.zeros]
      omega
    · simp
      omega

/-- With an exponent a few characters are added. -/
theorem length_withExponent_le {significant : Text} {lead : Int} (h : lead.natAbs < 1000) :
    (withExponent significant lead).length ≤ significant.length + 10 := by
  have hlead := Text.length_ofNat_le (k := 3) (by decide) h
  unfold withExponent
  simp only [List.length_append, List.length_cons, Text.padZero, Text.zeros, List.length_replicate]
  split <;> simp <;> omega

/-- So a rendered single is short. -/
theorem length_render_le (bits : Nat) : (render .single (.ofBits .single bits)).length ≤ 300 := by
  unfold render
  split
  · decide
  · split <;> decide
  · next negative m e hround =>
      obtain ⟨hlow, hhigh, hm⟩ := roundTo_ofBits_single hround
      have hshort := digits_short hm hlow hhigh
      have hall := hshort.length_mantissa_le
      have hstrip := length_stripZeros_le (Text.ofNat (digits .single m e).mantissa)
      have hexponent := hshort.low
      have hexponent' := hshort.high
      have hsign (size : Text) (h : size.length ≤ 299) :
          (if negative then 0x2D :: size else size).length ≤ 300 := by
        split
        · rw [List.length_cons]
          omega
        · omega
      apply hsign
      split
      · decide
      · simp only
        split
        · refine (length_withExponent_le ?_).trans ?_ <;> omega
        · next hlead =>
            simp only [Bool.or_eq_true, decide_eq_true_eq, not_or, not_lt, not_le] at hlead
            exact (length_positional_le hlead.1 hlead.2).trans (by omega)

end Number

namespace Value

theorem raw_lt (v : Value) : v.raw < 2 ^ 64 := by
  have hlt := Text.ofLittleEndian_lt (v.data.take 8)
  have hlength : (v.data.take 8).length ≤ 8 := List.length_take_le 8 _
  calc v.raw < 256 ^ (v.data.take 8).length := hlt
    _ ≤ 256 ^ 8 := Nat.pow_le_pow_right (by decide) hlength
    _ = 2 ^ 64 := by norm_num

/-- An integer has at most twenty digits. -/
theorem natAbs_toInt_lt {v : Value} (hstring : v.type ≠ .string) (hfloat : v.type ≠ .float) :
    v.toInt.natAbs < 10 ^ 20 := by
  have hraw := v.raw_lt
  unfold toInt
  split
  · rw [Int.bmod_def]
    split <;> omega
  · omega
  · next h => exact absurd h hfloat
  · omega
  · rw [Int.bmod_def]
    split <;> omega
  · next h => exact absurd h hstring
  · decide

/-- The text of a value that is not a string is short. -/
theorem length_toText_le {v : Value} (hstring : v.type ≠ .string) : v.toText.length ≤ 300 := by
  unfold toText
  split
  · next h => exact absurd h hstring
  · next h =>
      rw [toReal, h]
      exact length_render_le _
  · split <;> decide
  · decide
  · next h =>
      have hint := Text.length_ofInt_le (by decide) (natAbs_toInt_lt hstring (by rw [h]; decide))
      have hopen : ("object(" : Text).length = 7 := rfl
      have hclose : (")" : Text).length = 1 := rfl
      simp only [List.length_append, hopen, hclose]
      omega
  · next hfloat _ _ _ =>
      have hint := Text.length_ofInt_le (by decide) (natAbs_toInt_lt hstring hfloat)
      omega

/-- A value within the limit of the operand stack stays within it as another type. -/
theorem length_convert_le {v : Value} (h : v.data.length ≤ OperandStack.maxValueSize) (t : VarType) :
    (v.convert t).data.length ≤ OperandStack.maxValueSize := by
  have hmax : OperandStack.maxValueSize = 0x100000 := rfl
  unfold convert
  split
  · exact h
  · next hne =>
      split
      · exact (Text.length_littleEndian 4 _).le.trans (by decide)
      · exact (Text.length_littleEndian 4 _).le.trans (by decide)
      · exact (Text.length_littleEndian 4 _).le.trans (by decide)
      · exact Nat.le_of_ble_eq_true rfl
      · exact (Text.length_littleEndian 8 _).le.trans (by decide)
      · have htext := length_toText_le hne
        simp only [ofText, List.length_append, List.length_singleton]
        omega
      · decide

end Value

end TickScript
