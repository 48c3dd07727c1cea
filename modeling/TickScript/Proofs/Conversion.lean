import TickScript.Proofs.Listing.Number
import TickScript.Proofs.Machine.Arith
import TickScript.Proofs.Unit

/-!
# Conversions of values

A value that is converted to another type has the data of that type, whatever data it came with: bytes
of the right number, or a text up to its first NUL and that NUL behind it. So it can be stored as the
payload of a variable and is read back unchanged.

An integer is read in three ways (the low half signed, the low half unsigned, all of it signed) and
written in four. Each of the writings keeps the low half of what was read, and a handle or a decimal
text keeps all of it. Hence an integer comes back from every type that can hold it.

Two things have to be known about texts: that no numeral has a NUL in it, which would end the text
early when it is read back, and that reading a numeral gives the number again. Both are facts about
digits, and the texts of floats are covered by the same one, since they are digits with a sign, a
point and an exponent.

The table of integer conversions is not enumerated. A value is read through one of three views and
written through one of four, so the round trips come down to `toInt_convert_wide`,
`toInt_convert_int` and `toInt_convert_uint`, and each detour is a combination of two of them.
-/

namespace TickScript

namespace Text

/-- Numerals are written with digits, none of which is the NUL. -/
theorem zero_notMem_ofNat (n : Nat) : (0 : UInt8) ∉ ofNat n := fun h =>
  absurd (isDigit_of_mem_ofNat h) (by decide)

theorem zero_notMem_ofInt (n : Int) : (0 : UInt8) ∉ ofInt n := by
  rw [ofInt]
  split
  · simpa using zero_notMem_ofNat n.natAbs
  · exact zero_notMem_ofNat n.natAbs

theorem zero_notMem_zeros (count : Nat) : (0 : UInt8) ∉ zeros count := by simp [zeros]

end Text

/-! ## Texts of floats -/

namespace Number

open Text

variable {significant : Text} (hsignificant : (0 : UInt8) ∉ significant)

include hsignificant

theorem zero_notMem_stripZeros : (0 : UInt8) ∉ stripZeros significant := by
  have hmem (b : UInt8) (hb : b ∈ (significant.reverse.dropWhile (· == 0x30)).reverse) :
      b ∈ significant := by
    simpa using (List.dropWhile_sublist _).mem (List.mem_reverse.1 hb)
  rw [stripZeros]
  split
  · simp
  · exact fun h => hsignificant (hmem 0 h)

/-- Neither digits nor the point between them is the NUL. -/
theorem zero_notMem_positional (lead : Int) : (0 : UInt8) ∉ positional significant lead := by
  have hpoint : (0 : UInt8) ∉ Text.ofString "0." := by decide
  have htake (n : Nat) : (0 : UInt8) ∉ significant.take n := fun h => hsignificant (List.mem_of_mem_take h)
  have hdrop (n : Nat) : (0 : UInt8) ∉ significant.drop n := fun h => hsignificant (List.mem_of_mem_drop h)
  simp only [positional]
  split
  · simp [hpoint, zero_notMem_zeros, hsignificant]
  · split
    · simp [zero_notMem_zeros, hsignificant]
    · simp [htake, hdrop]

theorem zero_notMem_withExponent (lead : Int) : (0 : UInt8) ∉ withExponent significant lead := by
  have hpower : (0 : UInt8) ∉ padZero 2 (ofNat lead.natAbs) := by
    simp [padZero, zero_notMem_zeros, zero_notMem_ofNat]
  have hsign : (0 : UInt8) ≠ if lead < 0 then 0x2D else 0x2B := by
    split <;> decide
  cases significant with
  | nil => simp [withExponent, hpower, hsign]
  | cons first rest =>
      obtain ⟨hfirst, hrest⟩ := not_or.1 (mt List.mem_cons.2 hsignificant)
      cases rest with
      | nil => simp [withExponent, hpower, hsign, hfirst]
      | cons second rest =>
          have hmore : ¬(0 : UInt8) = second ∧ (0 : UInt8) ∉ rest := by simpa using hrest
          simp [withExponent, hpower, hsign, hfirst, hmore]

omit hsignificant

/-- A rendered float has no NUL in it, so its text is the string value as a whole. -/
theorem zero_notMem_render (f : Format) (x : Real) : (0 : UInt8) ∉ render f x := by
  have hnamed : (0 : UInt8) ∉ Text.ofString "NaN" ∧ (0 : UInt8) ∉ Text.ofString "-Inf"
      ∧ (0 : UInt8) ∉ Text.ofString "+Inf" := by
    decide
  rw [render]
  split
  · exact hnamed.1
  · split
    · exact hnamed.2.1
    · exact hnamed.2.2
  · next negative m e _ =>
      have hdigits (n : Nat) := zero_notMem_stripZeros (zero_notMem_ofNat n)
      have hsize (lead : Int) : (0 : UInt8) ∉ (if lead < leastPositional || positionalEnd ≤ lead
          then withExponent (stripZeros (ofNat (digits f m e).mantissa)) lead
          else positional (stripZeros (ofNat (digits f m e).mantissa)) lead) := by
        split
        · exact zero_notMem_withExponent (hdigits _) lead
        · exact zero_notMem_positional (hdigits _) lead
      by_cases hm : m = 0
      · simp only [hm]
        split <;> simp
      · simp only [beq_iff_eq, hm, if_false]
        split
        · exact List.not_mem_cons_of_ne_of_not_mem (by decide) (hsize _)
        · exact hsize _

end Number

namespace Value

open Text Number

/-! ## What a conversion stores -/

/-- The text of a value has no NUL: that of a string ends before its first one. -/
theorem zero_notMem_toText (v : Value) : (0 : UInt8) ∉ v.toText := by
  have hwords : (0 : UInt8) ∉ Text.ofString "true" ∧ (0 : UInt8) ∉ Text.ofString "false"
      ∧ (0 : UInt8) ∉ Text.ofString "void" ∧ (0 : UInt8) ∉ Text.ofString "object("
      ∧ (0 : UInt8) ∉ Text.ofString ")" := by
    decide
  obtain ⟨htrue, hfalse, hvoid, hopening, hclosing⟩ := hwords
  unfold toText
  split
  · intro h
    simpa using List.mem_takeWhile_imp h
  · exact zero_notMem_render _ _
  · split
    · exact htrue
    · exact hfalse
  · exact hvoid
  · simp [hopening, hclosing, zero_notMem_ofInt]
  · exact zero_notMem_ofInt _

section

variable {v : Value}

theorem convert_int (h : v.type ≠ .int) : v.convert .int = ofInt v.toInt := if_neg h

theorem convert_uint (h : v.type ≠ .uint) : v.convert .uint = ofUint v.toInt := if_neg h

theorem convert_object (h : v.type ≠ .object) : v.convert .object = ofHandle v.toInt := if_neg h

theorem convert_string (h : v.type ≠ .string) : v.convert .string = ofText v.toText := if_neg h

/-- The text of an integer is its decimal numeral. -/
theorem toText_integer (h : v.type = .int ∨ v.type = .uint) : v.toText = Text.ofInt v.toInt := by
  rcases h with h | h <;> simp [toText, h, VarType.int, VarType.uint]

end

/-- A converted value has a known type and the data of that type, however odd the data it came with. -/
theorem wellFormed_convert {v : Value} {t : VarType} (hknown : t.isKnown = true) (h : v.type ≠ t) :
    (v.convert t).WellFormed := by
  by_cases hvoid : t = .void
  · subst hvoid
    unfold convert
    rw [if_neg h]
    exact .of_size rfl rfl rfl
  · unfold convert
    rw [if_neg h]
    rcases (VarType.Storable.mk hknown hvoid).cases with rfl | rfl | rfl | rfl | rfl | rfl
    · exact wellFormed_ofHandle _
    · exact wellFormed_ofText _
    · exact wellFormed_ofReal _
    · exact wellFormed_ofBool _
    · exact wellFormed_ofInt _
    · exact wellFormed_ofUint _

/-! ## Integers there and back -/

/-- A text without NUL comes back whole from the string value made of it. -/
theorem stringText_ofText {t : Text} (h : (0 : UInt8) ∉ t) : (ofText t).stringText = t := by
  have hall : ∀ b ∈ t, (b != 0) = true := by
    intro b hb
    simp only [bne_iff_ne, ne_eq]
    rintro rfl
    exact h hb
  rw [stringText, ofText, List.takeWhile_append_of_pos hall]
  simp

/-- A string that holds the decimal text of a 64-bit number is read as that number. -/
theorem toInt_ofText_ofInt {n : Int} (hlow : -2 ^ 63 ≤ n) (hhigh : n < 2 ^ 63) :
    (ofText (Text.ofInt n)).toInt = n := by
  have hstring : (ofText (Text.ofInt n)).toInt
      = clampedDecimal 64 (ofText (Text.ofInt n)).stringText := rfl
  rw [hstring, stringText_ofText (zero_notMem_ofInt n), clampedDecimal,
    signedDecimal_ofInt hlow hhigh]

/-- Nothing of an integer is lost in a string or a handle. -/
theorem toInt_convert_wide {v : Value} (hlow : -2 ^ 63 ≤ v.toInt) (hhigh : v.toInt < 2 ^ 63)
    (htext : v.toText = Text.ofInt v.toInt) {t : VarType} (ht : t = .string ∨ t = .object)
    (h : v.type ≠ t) : (v.convert t).toInt = v.toInt := by
  rcases ht with rfl | rfl
  · rw [convert_string h, htext]
    exact toInt_ofText_ofInt hlow hhigh
  · rw [convert_object h, toInt_ofHandle, Int.bmod_def]
    split <;> omega

/-- A conversion to another type keeps the low half of an int. -/
theorem toInt_convert_int (n : Int) {t : VarType} (ht : t ∈ [.string, .object, .uint]) :
    ((ofInt n).convert t).toInt % 0x100000000 = n % 0x100000000 := by
  have hread : (ofInt n).toInt = Int.bmod n 0x100000000 := toInt_ofInt n
  have hbounds : -2 ^ 31 ≤ (ofInt n).toInt ∧ (ofInt n).toInt < 2 ^ 31 := by
    rw [hread, Int.bmod_def]
    split <;> omega
  have hlow : (ofInt n).toInt % 0x100000000 = n % 0x100000000 := by
    rw [hread, Int.bmod_def]
    split <;> omega
  have hwide (t : VarType) (ht : t = .string ∨ t = .object) (hne : .int ≠ t) :
      ((ofInt n).convert t).toInt = (ofInt n).toInt :=
    toInt_convert_wide (by omega) (by omega) (toText_integer (.inl rfl)) ht hne
  obtain rfl | rfl | rfl := by simpa only [List.mem_cons, List.not_mem_nil, or_false] using ht
  · rw [hwide _ (.inl rfl) (by decide), hlow]
  · rw [hwide _ (.inr rfl) (by decide), hlow]
  · rw [convert_uint (show VarType.int ≠ .uint by decide), toInt_ofUint]
    omega

/-- A conversion to another type keeps the low half of a uint. -/
theorem toInt_convert_uint (n : Int) {t : VarType} (ht : t ∈ [.string, .object, .int]) :
    ((ofUint n).convert t).toInt % 0x100000000 = n % 0x100000000 := by
  have hread : (ofUint n).toInt = n % 0x100000000 := toInt_ofUint n
  have hwide (t : VarType) (ht : t = .string ∨ t = .object) (hne : .uint ≠ t) :
      ((ofUint n).convert t).toInt = (ofUint n).toInt :=
    toInt_convert_wide (by omega) (by omega) (toText_integer (.inr rfl)) ht hne
  obtain rfl | rfl | rfl := by simpa only [List.mem_cons, List.not_mem_nil, or_false] using ht
  · rw [hwide _ (.inl rfl) (by decide)]
    omega
  · rw [hwide _ (.inr rfl) (by decide)]
    omega
  · rw [convert_int (show VarType.uint ≠ .int by decide), toInt_ofInt, Int.bmod_def]
    split <;> omega

/-- A signed integer survives each detour over the other wide types. -/
theorem int_back (n : Int) {t : VarType} (ht : t ∈ [.string, .object, .uint]) :
    ((ofInt n).convert t).convert .int = ofInt n := by
  have hkinds : ∀ t ∈ [VarType.string, .object, .uint], t.isKnown = true ∧ t ≠ .int := by decide
  have htype : ((ofInt n).convert t).type ≠ .int := by
    rw [type_convert (hkinds t ht).1]
    exact (hkinds t ht).2
  rw [convert_int htype]
  exact ofInt_congr (toInt_convert_int n ht)

/-- An unsigned integer survives them as well. -/
theorem uint_back (n : Int) {t : VarType} (ht : t ∈ [.string, .object, .int]) :
    ((ofUint n).convert t).convert .uint = ofUint n := by
  have hkinds : ∀ t ∈ [VarType.string, .object, .int], t.isKnown = true ∧ t ≠ .uint := by decide
  have htype : ((ofUint n).convert t).type ≠ .uint := by
    rw [type_convert (hkinds t ht).1]
    exact (hkinds t ht).2
  rw [convert_uint htype]
  exact ofUint_congr (toInt_convert_uint n ht)

/-! ## Conversions -/

/-- What a conversion to another type makes is a value of that type as it can be stored, and no
conversion of an integer that its new type can hold loses anything. -/
theorem convert_storable_and_lossless :
    (∀ (v : Value) (t : VarType), t.isKnown = true → v.type ≠ t →
      (v.convert t).type = t
        ∧ (∀ n, t.size? = some n → (v.convert t).data.length = n)
        ∧ (t = .string → ∃ text, 0 ∉ text ∧ (v.convert t).data = text ++ [0])
        ∧ ofPayload (v.convert t).toPayload = .ok (v.convert t))
    ∧ (∀ n : Int32, ∀ t ∈ [.string, .object, .uint],
        ((ofInt n.toInt).convert t).convert .int = ofInt n.toInt
        ∧ (((ofInt n.toInt).convert t).convert .int).toInt = n.toInt)
    ∧ (∀ n : UInt32, ∀ t ∈ [.string, .object, .int],
        ((ofUint n.toNat).convert t).convert .uint = ofUint n.toNat
        ∧ (((ofUint n.toNat).convert t).convert .uint).toInt = n.toNat)
    ∧ ∀ h : Int64, (ofText (Text.ofInt h.toInt)).convert .object = ofHandle h.toInt
        ∧ ((ofText (Text.ofInt h.toInt)).convert .object).toInt = h.toInt := by
  refine ⟨fun v t hknown hne => ?_, fun n t ht => ?_, fun n t ht => ?_, fun h => ?_⟩
  · have hwell := wellFormed_convert hknown hne
    have htype : (v.convert t).type = t := type_convert hknown v
    refine ⟨htype, fun n hn => hwell.size n (by rwa [htype]), ?_, Gen.ofPayload_toPayload hwell⟩
    rintro rfl
    exact ⟨v.toText, zero_notMem_toText v, congrArg data (convert_string hne)⟩
  · have hlow := n.le_toInt
    have hhigh := n.toInt_lt
    refine ⟨int_back _ ht, ?_⟩
    rw [int_back _ ht, toInt_ofInt_eq_iff]
    omega
  · have hhigh := n.toNat_lt
    refine ⟨uint_back _ ht, ?_⟩
    rw [uint_back _ ht, toInt_ofUint]
    omega
  · have hlow := h.le_toInt
    have hhigh := h.toInt_lt
    rw [convert_object (show VarType.string ≠ .object by decide), toInt_ofText_ofInt hlow hhigh,
      toInt_ofHandle, Int.bmod_def]
    refine ⟨rfl, ?_⟩
    split <;> omega

/-- An int with two bytes of data, as a binary may hold it, is stored as a handle of eight. -/
theorem shortInt_stored :
    (let v : Value := ⟨.int, [0xFE, 0xFF]⟩
     (v.convert .object).type = .object ∧ (v.convert .object).data.length = 8
      ∧ ofPayload (v.convert .object).toPayload = .ok (v.convert .object))
    ∧ (((ofInt (-1)).convert .string).convert .int).toInt = -1 := by
  obtain ⟨hstored, hint, -⟩ := convert_storable_and_lossless
  obtain ⟨htype, hsize, -, hread⟩ := hstored ⟨.int, [0xFE, 0xFF]⟩ .object rfl (by decide)
  exact ⟨⟨htype, hsize 8 rfl, hread⟩, (hint (-1) .string (by simp)).2⟩

end Value

end TickScript
