import TickScript.Number.Decimal
import TickScript.Proofs.Number.Integer
import TickScript.Proofs.Number.Rounding
import TickScript.Proofs.Text.Runes

/-!
# Decimal texts

A finite number is written as digits with a point, an exponent or both. `DecimalText` keeps these
parts, and the reader finds them in the text: the digits on both sides of the point make up one
mantissa, and the point lowers the exponent by the number of digits behind it. Where the decimal point
of the number ends up is known from the parts without any arithmetic on the digits, and that is what
tells that the number is within the reach of a format.

Nothing here depends on how the digits were found. A number is written in one of three forms and
read by one reader; `Proper` is what all of the forms have in common and what the reader needs: at
least one digit in front, digits only where digits belong, and an exponent of few digits.
-/

namespace TickScript.Number

open Text

/-- A decimal number in its parts, without a sign. -/
structure DecimalText where
  whole : Text
  /-- The digits behind the point, if there is a point. -/
  fraction? : Option Text
  exponent? : Option Int

namespace DecimalText

/-- The text behind the digits in front of the point: the point and its digits. -/
def pointText (d : DecimalText) : Text :=
  match d.fraction? with
  | some digits => 0x2E :: digits
  | none => []

/-- The exponent with its mark and its sign. -/
def exponentText (d : DecimalText) : Text :=
  match d.exponent? with
  | some e => 0x65 :: (if e < 0 then 0x2D else 0x2B) :: padZero 2 (ofNat e.natAbs)
  | none => []

def text (d : DecimalText) : Text := d.whole ++ (d.pointText ++ d.exponentText)

/-- The digits behind the point. -/
def fraction (d : DecimalText) : Text := d.fraction?.getD []

/-- The exponent, which counts from the place of the point. -/
def exponent (d : DecimalText) : Int := d.exponent?.getD 0

/-- The number is below ten to this power. -/
def reach (d : DecimalText) : Int := d.whole.length + d.exponent

/-- Digits stand where digits belong, and the exponent has few of them. -/
structure Proper (d : DecimalText) : Prop where
  /-- There is a digit before the point. -/
  nonempty : d.whole ≠ []
  /-- There are only digits before the point. -/
  whole : ∀ b ∈ d.whole, isDigit b = true
  /-- There are only digits behind the point. -/
  fraction : ∀ b ∈ d.fraction, isDigit b = true
  /-- The exponent has at most three digits. -/
  exponent : d.exponent.natAbs < 1000

end DecimalText

/-! ## Digits -/

/-- The number that digits spell behind a number. -/
def digitsFrom (value : Nat) (digits : Text) : Nat :=
  digits.foldl (fun value b => value * 10 + (b.toNat - 0x30)) value

/-- Digits are read on from the value of those before them. -/
theorem digitsFrom_append (value : Nat) (s t : Text) :
    digitsFrom value (s ++ t) = digitsFrom (digitsFrom value s) t := List.foldl_append

theorem bounds_of_isDigit {b : UInt8} (h : isDigit b = true) : 0x30 ≤ b.toNat ∧ b.toNat ≤ 0x39 := by
  simpa [isDigit, UInt8.le_iff_toNat_le] using h

/-- As many digits give less than that power of ten. -/
theorem digitsFrom_lt {digits : Text} (h : ∀ b ∈ digits, isDigit b = true) (value : Nat) :
    digitsFrom value digits < (value + 1) * 10 ^ digits.length := by
  induction digits generalizing value with
  | nil => simp [digitsFrom]
  | cons b digits ih =>
      rw [List.forall_mem_cons] at h
      have hb := bounds_of_isDigit h.1
      calc digitsFrom value (b :: digits)
          = digitsFrom (value * 10 + (b.toNat - 0x30)) digits := rfl
        _ < (value * 10 + (b.toNat - 0x30) + 1) * 10 ^ digits.length := ih h.2 _
        _ ≤ ((value + 1) * 10) * 10 ^ digits.length := Nat.mul_le_mul_right _ (by omega)
        _ = (value + 1) * 10 ^ (b :: digits).length := by
            rw [List.length_cons, Nat.pow_succ', Nat.mul_assoc]

theorem digit?_of_isDigit {b : UInt8} (h : isDigit b = true) : digit? b = some (b.toNat - 0x30) :=
  if_pos h

/-- A run of digits goes into the mantissa; behind the point it is counted as well. -/
theorem readMantissa_run {digits : Text} (h : ∀ b ∈ digits, isDigit b = true) (rest : Text)
    (value behind : Nat) (point seen : Bool) :
    readMantissa false value behind point seen (digits ++ rest)
      = readMantissa false (digitsFrom value digits) (if point then behind + digits.length else behind)
        point (seen || !digits.isEmpty) rest := by
  induction digits generalizing value behind seen with
  | nil => simp [digitsFrom]
  | cons b digits ih =>
      rw [List.forall_mem_cons] at h
      have hbounds := bounds_of_isDigit h.1
      have hunderscore : (b == 0x5F) = false := by simpa using ne_of_class h.1 rfl
      have hpoint : (b == 0x2E) = false := by simpa using ne_of_class h.1 rfl
      have hsmall : b.toNat - 0x30 < 10 := by omega
      rw [List.cons_append, readMantissa]
      simp only [hunderscore, hpoint, digit?_of_isDigit h.1, hsmall, if_true, if_false,
        Bool.false_eq_true]
      rw [ih h.2]
      cases point <;> cases seen <;> simp [digitsFrom, Nat.add_comm, Nat.add_left_comm]

/-- Few digits of an exponent are all read. -/
theorem readExponent_run {digits : Text} (h : ∀ b ∈ digits, isDigit b = true) {value : Nat}
    (hsmall : (value + 1) * 10 ^ digits.length ≤ 10 ^ 5) :
    readExponent value digits = (digitsFrom value digits, []) := by
  induction digits generalizing value with
  | nil => rfl
  | cons b digits ih =>
      rw [List.forall_mem_cons] at h
      have hb := bounds_of_isDigit h.1
      rw [List.length_cons, Nat.pow_succ', ← Nat.mul_assoc] at hsmall
      have hvalue : value < 10000 := by
        have hle : (value + 1) * 10 * 1 ≤ (value + 1) * 10 * 10 ^ digits.length :=
          Nat.mul_le_mul_left _ (Nat.one_le_pow _ _ (by decide))
        omega
      rw [readExponent, if_pos h.1, if_pos hvalue]
      apply ih h.2
      calc (value * 10 + (b.toNat - 0x30) + 1) * 10 ^ digits.length
          ≤ (value + 1) * 10 * 10 ^ digits.length := Nat.mul_le_mul_right _ (by omega)
        _ ≤ 10 ^ 5 := hsmall

/-- A numeral is read back. -/
theorem digitsFrom_ofNat (n : Nat) : digitsFrom 0 (ofNat n) = n := by
  have hdigit : ∀ d, d < 10 → (byte d.digitChar).toNat - 0x30 = d := by decide
  apply toDigits_induction 10 (by decide)
    (motive := fun n digits => digitsFrom 0 (digits.map byte) = n)
  · intro n hn
    show 0 * 10 + ((byte n.digitChar).toNat - 0x30) = n
    rw [hdigit n hn, Nat.zero_mul, Nat.zero_add]
  · intro n digits _ ih
    rw [List.map_append, digitsFrom_append, ih]
    show n / 10 * 10 + ((byte (n % 10).digitChar).toNat - 0x30) = n
    rw [hdigit (n % 10) (Nat.mod_lt n (by decide))]
    omega

/-- Zeros in front do not count. -/
theorem digitsFrom_zeros (count : Nat) : digitsFrom 0 (zeros count) = 0 := by
  induction count with
  | zero => rfl
  | succ count ih => exact ih

/-- A padded numeral is made of digits. -/
theorem isDigit_of_mem_padZero {width n : Nat} {b : UInt8} (h : b ∈ padZero width (ofNat n)) :
    isDigit b = true := by
  rcases List.mem_append.1 h with h | h
  · rw [List.eq_of_mem_replicate h]
    rfl
  · exact isDigit_of_mem_ofNat h

/-- The digits of an exponent are read as the exponent. -/
theorem readExponent_padZero {n : Nat} (hn : n < 1000) :
    readExponent 0 (padZero 2 (ofNat n)) = (n, []) := by
  have hlength : (padZero 2 (ofNat n)).length ≤ 3 := by
    have hle := length_ofNat_le (k := 3) (by decide) hn
    rw [padZero, List.length_append, zeros, List.length_replicate]
    omega
  have hsmall : (0 + 1) * 10 ^ (padZero 2 (ofNat n)).length ≤ 10 ^ 5 := by
    rw [Nat.zero_add, Nat.one_mul]
    exact Nat.pow_le_pow_right (by decide) (by omega)
  rw [readExponent_run (fun b hb => isDigit_of_mem_padZero hb) hsmall, padZero, digitsFrom_append,
    digitsFrom_zeros, digitsFrom_ofNat]

/-! ## Signs and names -/

/-- A text with a minus sign in front of a negative number. -/
def withSign (negative : Bool) (t : Text) : Text := if negative then 0x2D :: t else t

theorem lowerByte_of_isDigit {b : UInt8} (h : isDigit b = true) : lowerByte b = b := by
  have hbounds := bounds_of_isDigit h
  rw [lowerByte, if_neg]
  rw [Bool.not_eq_true]
  simp only [isUpper, Bool.and_eq_false_iff, decide_eq_false_iff_not, UInt8.not_le,
    UInt8.lt_iff_toNat_lt]
  exact .inl (Nat.lt_of_le_of_lt hbounds.2 (by decide))

/-- A sign in front of a digit is taken off again. -/
theorem dropSign_withSign (negative : Bool) {b : UInt8} (hb : isDigit b = true) (t : Text) :
    dropSign (withSign negative (b :: t)) = b :: t := by
  cases negative with
  | true => rfl
  | false =>
      have hminus : b ≠ 0x2D := ne_of_class hb rfl
      have hplus : b ≠ 0x2B := ne_of_class hb rfl
      show dropSign (b :: t) = b :: t
      exact dropSign_of_head (by simpa using hminus) (by simpa using hplus)

/-- What starts with a digit, behind a sign or not, is none of the named numbers. -/
theorem named?_withSign (negative : Bool) {b : UInt8} (hb : isDigit b = true) (t : Text) :
    named? (withSign negative (b :: t)) = none := by
  have hascii : b < 0x80 := by
    rw [UInt8.lt_iff_toNat_lt]
    exact Nat.lt_of_le_of_lt (bounds_of_isDigit hb).2 (by decide)
  have hother {word u : Text} (hword : ∀ c ∈ word, isDigit (lowerByte c) = false) (hmem : b ∈ u) :
      equalFold word u = false := by
    rw [Bool.eq_false_iff]
    intro hfold
    refine not_mem_of_equalFold hfold hascii ?_ hmem
    intro c hc
    rw [lowerByte_of_isDigit hb]
    exact ne_of_class hb (hword c hc)
  have hsigned : b ∈ withSign negative (b :: t) := by cases negative <;> simp [withSign]
  have hinf : equalFold "inf" (b :: t) = false := hother (by decide) List.mem_cons_self
  have hinfinity : equalFold "infinity" (b :: t) = false :=
    hother (by decide) List.mem_cons_self
  have hnan : equalFold "nan" (withSign negative (b :: t)) = false :=
    hother (by decide) hsigned
  simp only [named?, dropSign_withSign negative hb, hinf, hinfinity, hnan, Bool.or_self,
    Bool.false_eq_true, if_false]

/-! ## Reading the parts -/

namespace DecimalText

variable {d : DecimalText}

/-- A decimal text begins with a digit. -/
theorem Proper.exists_head (h : d.Proper) : ∃ b rest, d.text = b :: rest ∧ isDigit b = true := by
  obtain ⟨b, digits, hwhole⟩ := List.exists_cons_of_ne_nil h.nonempty
  refine ⟨b, digits ++ (d.pointText ++ d.exponentText), by rw [text, hwhole, List.cons_append], ?_⟩
  exact h.whole b (by rw [hwhole]; exact List.mem_cons_self)

/-- What holds of the digits and of the four marks holds of all bytes of a decimal text. -/
theorem Proper.forall_mem (h : d.Proper) {P : UInt8 → Prop} (hdigit : ∀ b, isDigit b = true → P b)
    (hmark : P 0x2E ∧ P 0x65 ∧ P 0x2D ∧ P 0x2B) : ∀ b ∈ d.text, P b := by
  obtain ⟨hpoint, hexponent, hminus, hplus⟩ := hmark
  intro b hb
  rw [text, List.mem_append, List.mem_append] at hb
  rcases hb with hb | hb | hb
  · exact hdigit b (h.whole b hb)
  · have hfraction := h.fraction
    rw [DecimalText.fraction] at hfraction
    rw [pointText] at hb
    cases hsome : d.fraction? with
    | none =>
        rw [hsome] at hb
        cases hb
    | some digits =>
        rw [hsome] at hb hfraction
        rcases List.mem_cons.1 hb with rfl | hb
        · exact hpoint
        · exact hdigit b (hfraction b hb)
  · rw [exponentText] at hb
    cases hsome : d.exponent? with
    | none =>
        rw [hsome] at hb
        cases hb
    | some e =>
        rw [hsome] at hb
        rcases List.mem_cons.1 hb with rfl | hb
        · exact hexponent
        rcases List.mem_cons.1 hb with rfl | hb
        · by_cases he : e < 0
          · rw [if_pos he]
            exact hminus
          · rw [if_neg he]
            exact hplus
        · exact hdigit b (isDigit_of_mem_padZero hb)

/-- Digits on both sides of the point are one mantissa. -/
theorem Proper.readMantissa (h : d.Proper) :
    readMantissa false 0 0 false false d.text
      = (digitsFrom 0 (d.whole ++ d.fraction), d.fraction.length, true, d.exponentText) := by
  have hseen : (false || !d.whole.isEmpty) = true := by simpa using h.nonempty
  have hstop (value behind : Nat) (point : Bool) :
      Number.readMantissa false value behind point true d.exponentText
        = (value, behind, true, d.exponentText) := by
    rw [exponentText]
    cases d.exponent? <;> rfl
  have hfraction := h.fraction
  rw [text, readMantissa_run h.whole, hseen, digitsFrom_append]
  simp only [Bool.false_eq_true, if_false]
  rw [DecimalText.fraction] at hfraction ⊢
  rw [pointText]
  cases hpoint : d.fraction? with
  | none =>
      show Number.readMantissa false (digitsFrom 0 d.whole) 0 false true d.exponentText = _
      rw [hstop]
      rfl
  | some digits =>
      rw [hpoint] at hfraction
      have hdigits : ∀ b ∈ digits, isDigit b = true := hfraction
      show Number.readMantissa false (digitsFrom 0 d.whole) 0 true true (digits ++ d.exponentText) = _
      rw [readMantissa_run hdigits, Bool.true_or, if_pos rfl, Nat.zero_add, hstop]
      rfl

/-- The exponent is read with its sign. -/
theorem signedExponent?_eq {e : Int} (he : e.natAbs < 1000) :
    signedExponent? ((if e < 0 then 0x2D else 0x2B) :: padZero 2 (ofNat e.natAbs)) = some (e, []) := by
  obtain ⟨b, digits, hcons⟩ : ∃ b digits, padZero 2 (ofNat e.natAbs) = b :: digits :=
    List.exists_cons_of_ne_nil (List.append_ne_nil_of_right_ne_nil _ (ofNat_ne_nil _))
  have hb : isDigit b = true :=
    isDigit_of_mem_padZero (hcons ▸ List.mem_cons_self)
  have hread := readExponent_padZero he
  rw [hcons] at hread ⊢
  by_cases hsign : e < 0
  · have hvalue : -(e.natAbs : Int) = e := by omega
    rw [if_pos hsign]
    show (if isDigit b then some (if true then -((readExponent 0 (b :: digits)).1 : Int) else _,
      (readExponent 0 (b :: digits)).2) else none) = _
    rw [if_pos hb, hread, if_pos rfl, hvalue]
  · have hvalue : (e.natAbs : Int) = e := by omega
    rw [if_neg hsign]
    show (if isDigit b then some (if false then _ else ((readExponent 0 (b :: digits)).1 : Int),
      (readExponent 0 (b :: digits)).2) else none) = _
    rw [if_pos hb, hread, if_neg Bool.false_ne_true, hvalue]

/-- Behind the mantissa stands nothing or the exponent. -/
theorem Proper.exponent_cases (h : d.Proper) : (d.exponentText = [] ∧ d.exponent = 0)
    ∨ ∃ digits, d.exponentText = 0x65 :: digits ∧ signedExponent? digits = some (d.exponent, []) := by
  have hbound := h.exponent
  rw [DecimalText.exponent] at hbound ⊢
  rw [exponentText]
  cases hexponent : d.exponent? with
  | none => exact .inl ⟨rfl, rfl⟩
  | some e =>
      rw [hexponent] at hbound
      exact .inr ⟨_, rfl, signedExponent?_eq hbound⟩

/-- A byte of a decimal text is no letter but the mark of an exponent. -/
theorem Proper.second (h : d.Proper) : ∀ b ∈ d.text, (lowerByte b == byte 'x') = false := by
  apply h.forall_mem (P := fun b => (lowerByte b == byte 'x') = false)
  · intro b hb
    rw [lowerByte_of_isDigit hb]
    simpa using ne_of_class hb (show isDigit (byte 'x') = false from rfl)
  · decide

/-- So its sign can be told from it. -/
theorem Proper.dropSign (h : d.Proper) (negative : Bool) :
    Number.dropSign (withSign negative d.text) = d.text := by
  obtain ⟨b, rest, htext, hb⟩ := h.exists_head
  rw [htext]
  exact dropSign_withSign negative hb rest

/-- The reader finds the parts. -/
theorem Proper.scientific? (h : d.Proper) (negative : Bool) :
    scientific? (withSign negative d.text) = some ⟨negative, false,
      digitsFrom 0 (d.whole ++ d.fraction), d.exponent - d.fraction.length⟩ := by
  have hsign : ((withSign negative d.text).head? == some 0x2D) = negative := by
    cases negative with
    | true => rfl
    | false =>
        obtain ⟨b, rest, htext, hb⟩ := h.exists_head
        have hminus : b ≠ 0x2D := ne_of_class hb rfl
        rw [withSign, if_neg Bool.false_ne_true, htext]
        simpa using hminus
  have hplain : (withSign negative d.text).contains 0x5F = false := by
    have hnone : 0x5F ∉ d.text := by
      intro hmem
      exact h.forall_mem (P := (· ≠ 0x5F)) (fun b hb => ne_of_class hb rfl) (by decide) _ hmem rfl
    cases negative <;> simpa [withSign] using hnone
  -- the text has no base mark, so it is taken whole
  have hsecond := h.second
  have hread := h.readMantissa
  unfold Number.scientific?
  simp only [h.dropSign, hsign, hplain]
  split
  case' h_1 b c rest heq =>
    rw [heq] at hsecond
    have hmark : (lowerByte b == byte 'x') = false := hsecond b (by simp)
    simp only [hmark, Bool.false_eq_true, if_false]
  all_goals
    simp only [hread, Bool.not_true, Bool.false_eq_true, if_false]
    rcases h.exponent_cases with ⟨hnone, hzero⟩ | ⟨digits, hsome, hexponent⟩
    · rw [hnone, hzero]
      rfl
    · have hmark : (lowerByte 0x65 == byte 'e') = true := rfl
      simp only [hsome, hmark, hexponent, if_true, bind, Option.bind]
      rfl

end DecimalText

/-! ## The number behind the text -/

/-- A mantissa of at most `k` digits below a power of ten that the 64-bit format reaches is rounded to
a finite number. -/
theorem Scientific.round_double {s : Scientific} (hdecimal : s.hexadecimal = false) {k : Nat}
    (hmantissa : s.mantissa < 10 ^ k) (hreach : (k : Int) + s.exponent ≤ 200) :
    ∃ m e, s.round .double = .finite s.negative m e := by
  -- the format reaches well beyond that power of ten
  have htop : (10 : ℚ) ^ (200 : Int) ≤ (2 ^ 53 - 1) * 2 ^ (971 : Int) := by
    calc (10 : ℚ) ^ (200 : Int)
        ≤ (2 ^ (4 : Int)) ^ (200 : Int) :=
          zpow_le_zpow_left₀ (by norm_num) (by norm_num) (by norm_num)
      _ = 2 ^ (800 : Int) := by
          rw [← zpow_mul]
          norm_num
      _ ≤ 2 ^ (971 : Int) := zpow_le_zpow_right₀ (by norm_num) (by norm_num)
      _ ≤ (2 ^ 53 - 1) * 2 ^ (971 : Int) := le_mul_of_one_le_left (by positivity) (by norm_num)
  have hsize : (s.mantissa : ℚ) * 10 ^ s.exponent ≤ (2 ^ 53 - 1) * 2 ^ (971 : Int) := by
    calc (s.mantissa : ℚ) * 10 ^ s.exponent
        ≤ 10 ^ (k : Int) * 10 ^ s.exponent := by
          gcongr
          exact_mod_cast hmantissa.le
      _ = 10 ^ ((k : Int) + s.exponent) := by rw [zpow_add₀ (by norm_num)]
      _ ≤ 10 ^ (200 : Int) := zpow_le_zpow_right₀ (by norm_num) hreach
      _ ≤ (2 ^ 53 - 1) * 2 ^ (971 : Int) := htop
  -- so every ratio of that size is rounded to a finite number
  have hfinite {num den : Nat} (hden : den ≠ 0)
      (hratio : (num / den : ℚ) = s.mantissa * 10 ^ s.exponent) :
      ∃ m e, Real.round .double s.negative num den = .finite s.negative m e := by
    obtain ⟨m, e, hround, -, -⟩ := Real.round_finite (f := .double) s.negative hden (by decide)
      (g := 971) (by decide) (by decide) (by decide) (hratio ▸ hsize)
    exact ⟨m, e, hround⟩
  unfold Scientific.round
  by_cases hzero : s.mantissa = 0
  · exact ⟨0, 0, if_pos (by simpa using hzero)⟩
  rw [if_neg (by simpa using hzero), hdecimal, if_neg Bool.false_ne_true]
  simp only
  -- a mantissa that is not zero has as many digits as it is compared with, at most
  have hk : 0 < k := by
    by_contra hk
    obtain rfl : k = 0 := by omega
    omega
  have hlength : (Nat.toDigits 10 s.mantissa).length ≤ k :=
    (Nat.length_toDigits_le_iff (by decide) hk).2 hmantissa
  rw [if_neg (by omega)]
  split
  · exact ⟨0, 0, rfl⟩
  split
  · -- a negative exponent makes a denominator, any other one a factor
    next hnegative =>
      apply hfinite (Nat.pos_iff_ne_zero.1 (Nat.pow_pos (by decide)))
      obtain ⟨n, hn⟩ : ∃ n : Nat, s.exponent = -n := ⟨s.exponent.natAbs, by omega⟩
      rw [hn, Int.natAbs_neg, Int.natAbs_natCast, zpow_neg, zpow_natCast, div_eq_mul_inv]
      push_cast
      rfl
  · next hnegative =>
      apply hfinite one_ne_zero
      obtain ⟨n, hn⟩ : ∃ n : Nat, s.exponent = n := ⟨s.exponent.natAbs, by omega⟩
      rw [hn, Int.natAbs_natCast, zpow_natCast, Nat.cast_one, div_one]
      exact_mod_cast rfl

/-- A decimal text whose point stands within reach is read as a finite number of the 64-bit format. -/
theorem DecimalText.Proper.parse_double {d : DecimalText} (h : d.Proper) (hreach : d.reach ≤ 200)
    (negative : Bool) :
    ∃ m e, parse .double (withSign negative d.text) = .ok (.finite negative m e) := by
  have hnamed : named? (withSign negative d.text) = none := by
    obtain ⟨b, rest, htext, hb⟩ := h.exists_head
    rw [htext]
    exact named?_withSign negative hb rest
  have hdigits : ∀ b ∈ d.whole ++ d.fraction, isDigit b = true :=
    List.forall_mem_append.2 ⟨h.whole, h.fraction⟩
  have hmantissa := digitsFrom_lt hdigits 0
  rw [Nat.zero_add, Nat.one_mul, List.length_append] at hmantissa
  obtain ⟨m, e, hround⟩ := Scientific.round_double (k := d.whole.length + d.fraction.length)
    (s := ⟨negative, false, digitsFrom 0 (d.whole ++ d.fraction), d.exponent - d.fraction.length⟩)
    rfl hmantissa (by
      rw [reach] at hreach
      push_cast
      omega)
  refine ⟨m, e, ?_⟩
  simp only [parse, hnamed, h.scientific?, hround]

end TickScript.Number
