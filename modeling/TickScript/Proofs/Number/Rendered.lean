import TickScript.Proofs.Number.DecimalText
import TickScript.Proofs.Number.Single

/-!
# Rendered numbers in their parts

A finite number of the 32-bit format is rendered as a decimal text: as a lone zero, positionally or
with an exponent. In each case the parts are proper and the number ends up within the reach of the
64-bit format, so the text is read there as a finite number again. The text may have neither a point
nor an exponent; with a fraction of one zero behind it, it always has one of them.

The three forms are the lone zero, the positional one and the one with an exponent. For each of them
the parts of `DecimalText` are given outright, and the only calculation is that of `reach`, the
power of ten below which the number lies.
-/

namespace TickScript.Number

open Text

/-! ## Significant digits -/

/-- One digit stays in any case. -/
theorem stripZeros_ne_nil (t : Text) : stripZeros t ≠ [] := by
  unfold stripZeros
  split
  · exact List.cons_ne_nil _ _
  · next hne => exact hne

theorem isDigit_of_mem_stripZeros {t : Text} (h : ∀ b ∈ t, isDigit b = true) :
    ∀ b ∈ stripZeros t, isDigit b = true := by
  intro b hb
  unfold stripZeros at hb
  split at hb
  · obtain rfl := List.mem_singleton.1 hb
    rfl
  · apply h b
    have hmem := List.mem_reverse.1 hb
    exact List.mem_reverse.1 ((List.dropWhile_sublist _).subset hmem)

theorem isDigit_zero : ∀ b ∈ ([0x30] : Text), isDigit b = true := List.forall_mem_singleton.2 rfl

theorem isDigit_of_mem_zeros {count : Nat} {b : UInt8} (h : b ∈ zeros count) : isDigit b = true := by
  rw [List.eq_of_mem_replicate h]
  rfl

section

variable {significant : Text} (hne : significant ≠ [])
  (hdigits : ∀ b ∈ significant, isDigit b = true)

include hne hdigits

/-- A number of moderate size is written without an exponent. -/
theorem exists_positional {lead : Int} (hlead : lead < positionalEnd) :
    ∃ d : DecimalText, d.Proper ∧ d.reach ≤ 6 ∧ positional significant lead = d.text := by
  unfold positionalEnd at hlead
  unfold positional
  have hnone : (0 : Int).natAbs < 1000 := by decide
  -- below one: a zero, the point, zeros up to the first digit
  by_cases hsmall : lead < 0
  · rw [if_pos hsmall]
    refine ⟨⟨[0x30], some (zeros (lead.natAbs - 1) ++ significant), none⟩, ?_,
      by simp [DecimalText.reach, DecimalText.exponent], ?_⟩
    · refine ⟨List.cons_ne_nil _ _, isDigit_zero, ?_, hnone⟩
      intro b hb
      rcases List.mem_append.1 hb with hb | hb
      · exact isDigit_of_mem_zeros hb
      · exact hdigits b hb
    · show [0x30, 0x2E] ++ zeros (lead.natAbs - 1) ++ significant = _
      simp [DecimalText.text, DecimalText.pointText, DecimalText.exponentText]
  rw [if_neg hsmall]
  -- a whole number: the digits are filled up with zeros
  by_cases hshort : significant.length ≤ lead.natAbs + 1
  · refine ⟨⟨significant ++ zeros (lead.natAbs + 1 - significant.length), none, none⟩, ?_, ?_, ?_⟩
    · refine ⟨List.append_ne_nil_of_left_ne_nil hne _, ?_, by simp [DecimalText.fraction], hnone⟩
      intro b hb
      rcases List.mem_append.1 hb with hb | hb
      · exact hdigits b hb
      · exact isDigit_of_mem_zeros hb
    · simp only [DecimalText.reach, DecimalText.exponent, Option.getD_none, List.length_append, zeros,
        List.length_replicate]
      omega
    · simp [hshort, DecimalText.text, DecimalText.pointText, DecimalText.exponentText]
  · -- the point stands between the digits
    refine ⟨⟨significant.take (lead.natAbs + 1), some (significant.drop (lead.natAbs + 1)), none⟩,
      ?_, ?_, ?_⟩
    · refine ⟨by simpa using hne, ?_, ?_, hnone⟩
      · exact fun b hb => hdigits b (List.mem_of_mem_take hb)
      · exact fun b hb => hdigits b (List.mem_of_mem_drop hb)
    · simp only [DecimalText.reach, DecimalText.exponent, Option.getD_none, List.length_take]
      omega
    · simp [hshort, DecimalText.text, DecimalText.pointText, DecimalText.exponentText]

/-- Any other is written with one digit in front of the point. -/
theorem exists_withExponent {lead : Int} (hlead : lead.natAbs < 1000) :
    ∃ d : DecimalText, d.Proper ∧ d.reach = 1 + lead ∧ withExponent significant lead = d.text := by
  obtain ⟨first, rest, rfl⟩ := List.exists_cons_of_ne_nil hne
  rw [List.forall_mem_cons] at hdigits
  cases rest with
  | nil =>
      refine ⟨⟨[first], none, some lead⟩, ?_, by simp [DecimalText.reach, DecimalText.exponent], rfl⟩
      exact ⟨List.cons_ne_nil _ _, by simpa using hdigits.1, by simp [DecimalText.fraction], hlead⟩
  | cons second rest =>
      refine ⟨⟨[first], some (second :: rest), some lead⟩, ?_,
        by simp [DecimalText.reach, DecimalText.exponent], rfl⟩
      exact ⟨List.cons_ne_nil _ _, by simpa using hdigits.1, hdigits.2, hlead⟩

end

/-! ## Rendered numbers -/

/-- A stored finite number is rendered as a decimal text within reach of the 64-bit format. -/
theorem exists_render {bits m : Nat} {s : Bool} {e : Int} (h : Real.ofBits .single bits = .finite s m e) :
    ∃ (negative : Bool) (d : DecimalText), d.Proper ∧ d.reach ≤ 200
      ∧ render .single (.ofBits .single bits) = withSign negative d.text := by
  obtain ⟨negative, m', e', hround, -, -⟩ := Real.staysFinite_ofBits h
  rw [← h] at hround
  -- the sign does not matter
  have hsign {size : Text} (hsize : ∃ d : DecimalText, d.Proper ∧ d.reach ≤ 200 ∧ size = d.text) :
      ∃ (negative' : Bool) (d : DecimalText), d.Proper ∧ d.reach ≤ 200
        ∧ (if negative then 0x2D :: size else size) = withSign negative' d.text := by
    obtain ⟨d, hd, hreach, rfl⟩ := hsize
    exact ⟨negative, d, hd, hreach, rfl⟩
  unfold render
  simp only [hround]
  apply hsign
  -- zero has a form of its own
  by_cases hzero : m' = 0
  · rw [if_pos (by simpa using hzero)]
    refine ⟨⟨[0x30], none, none⟩, ⟨List.cons_ne_nil _ _, isDigit_zero, ?_, by decide⟩, by decide, rfl⟩
    simp [DecimalText.fraction]
  rw [if_neg (by simpa using hzero)]
  -- any other number has few digits, not far from the point
  obtain ⟨hleast, hgreatest, hm⟩ := roundTo_ofBits_single hround
  have hshort := digits_short hm hleast hgreatest
  generalize digits .single m' e' = shortest at hshort
  have hlow := hshort.low
  have hhigh := hshort.length_mantissa_le
  have hpos := List.length_pos_iff.2 (ofNat_ne_nil shortest.mantissa)
  have hdigits : ∀ b ∈ stripZeros (ofNat shortest.mantissa), isDigit b = true :=
    isDigit_of_mem_stripZeros fun b hb => isDigit_of_mem_ofNat hb
  have hne := stripZeros_ne_nil (ofNat shortest.mantissa)
  split
  · obtain ⟨d, hd, hreach, htext⟩ := exists_withExponent hne hdigits
      (by omega : (shortest.exponent + ((ofNat shortest.mantissa).length - 1 : Nat)).natAbs < 1000)
    exact ⟨d, hd, by omega, htext⟩
  · next hlead =>
      simp only [Bool.or_eq_true, decide_eq_true_eq, not_or, not_lt, not_le] at hlead
      obtain ⟨d, hd, hreach, htext⟩ := exists_positional hne hdigits hlead.2
      exact ⟨d, hd, by omega, htext⟩

namespace DecimalText

/-- Neither a point nor an exponent. -/
def isWhole (d : DecimalText) : Bool := d.fraction?.isNone && d.exponent?.isNone

/-- The number with a point, unless it has a point or an exponent already. -/
def pointed (d : DecimalText) : DecimalText :=
  if d.isWhole then { d with fraction? := some [0x30] } else d

theorem isWhole_pointed (d : DecimalText) : d.pointed.isWhole = false := by
  unfold pointed
  split
  · rfl
  · next h => simpa using h

variable {d : DecimalText}

/-- A point and a zero make a whole number a float. -/
theorem Proper.pointed (h : d.Proper) : d.pointed.Proper := by
  unfold DecimalText.pointed
  split
  · exact ⟨h.nonempty, h.whole, by simp [DecimalText.fraction]; rfl, h.exponent⟩
  · exact h

/-- They move no digit. -/
theorem reach_pointed : d.pointed.reach = d.reach := by
  unfold pointed
  split <;> rfl

theorem text_pointed : d.pointed.text = if d.isWhole then d.text ++ ".0" else d.text := by
  unfold pointed
  split
  · next h =>
      simp only [isWhole, Bool.and_eq_true, Option.isNone_iff_eq_none] at h
      simp only [text, pointText, exponentText, h.1, h.2, List.append_nil]
      rfl
  · rfl

/-- A byte that is no digit tells a number with a point or an exponent. -/
theorem Proper.any_mark (h : d.Proper) (negative : Bool) :
    ((withSign negative d.text).any fun b => b == 0x2E || b == 0x65 || b == 0x45 || b == 0x6E)
      = !d.isWhole := by
  have hsign : ((withSign negative d.text).any fun b => b == 0x2E || b == 0x65 || b == 0x45 || b == 0x6E)
      = d.text.any fun b => b == 0x2E || b == 0x65 || b == 0x45 || b == 0x6E := by
    cases negative <;> rfl
  rw [hsign]
  cases hwhole : d.isWhole with
  | true =>
      simp only [isWhole, Bool.and_eq_true, Option.isNone_iff_eq_none] at hwhole
      have htext : d.text = d.whole := by
        simp only [text, pointText, exponentText, hwhole.1, hwhole.2, List.append_nil]
      rw [htext, Bool.not_true, List.any_eq_false]
      intro b hb
      have hother (c : UInt8) (hc : isDigit c = false) : b ≠ c := ne_of_class (h.whole b hb) hc
      simp [hother 0x2E rfl, hother 0x65 rfl, hother 0x45 rfl, hother 0x6E rfl]
  | false =>
      rw [Bool.not_false, List.any_eq_true]
      simp only [isWhole, Bool.and_eq_false_iff, Option.isNone_eq_false_iff,
        Option.isSome_iff_exists] at hwhole
      rcases hwhole with ⟨digits, hsome⟩ | ⟨e, hsome⟩
      · exact ⟨0x2E, by simp [text, pointText, hsome], rfl⟩
      · exact ⟨0x65, by simp [text, exponentText, hsome], rfl⟩

end DecimalText

end TickScript.Number
