import TickScript.Proofs.Text.Digits
import TickScript.Proofs.Text.Runes

/-!
# Quoted text is read back

Between quotes a rune stands as it is, behind a backslash, by a letter or by its number, and each of
these is read back to the bytes of the rune. So reading a quoted text undoes quoting, whatever the
text is: a byte that belongs to no code point is written by its number and comes back as the byte.

`Quotes` lists these ways, with a constructor for each length of a number. Which of them is taken
depends on whether the rune is printable, and nothing has to be known of that here: every rune may
be written in any of the ways that its constructor allows, and each of them is read back.
-/

namespace TickScript.Text

/-! ## Hexadecimal digits -/

theorem hexDigits?_add (m k value : Nat) (t : Text) : hexDigits? (m + k) value t
    = (hexDigits? m value t).bind fun read => hexDigits? k read.1 read.2 := by
  induction m generalizing value t with
  | zero =>
      rw [Nat.zero_add]
      rfl
  | succ m ih =>
      rw [Nat.succ_add]
      cases t with
      | nil => rfl
      | cons b t =>
          simp only [hexDigits?, Option.bind_eq_bind]
          cases hexDigit? b with
          | none => rfl
          | some digit => exact ih (value * 16 + digit) t

theorem hexDigits?_zeros (count : Nat) (rest : Text) :
    hexDigits? count 0 (zeros count ++ rest) = some (0, rest) := by
  induction count with
  | zero => rfl
  | succ count ih => exact ih

/-- The digits of a number are read as the number. -/
theorem hexDigits?_hex (n : Nat) (rest : Text) :
    hexDigits? (hex n).length 0 (hex n ++ rest) = some (n, rest) := by
  have hdigit : ∀ d, d < 16 → hexDigit? (byte d.digitChar) = some d := by decide
  have hone (value d : Nat) (hd : d < 16) (t : Text) :
      hexDigits? 1 value (byte d.digitChar :: t) = some (value * 16 + d, t) := by
    simp only [hexDigits?, hdigit d hd, Option.bind_eq_bind, Option.bind_some]
  revert rest
  apply toDigits_induction 16 (by decide) (motive := fun n digits => ∀ rest,
    hexDigits? (digits.map byte).length 0 (digits.map byte ++ rest) = some (n, rest))
  · intro n hn rest
    show hexDigits? 1 0 (byte n.digitChar :: rest) = some (n, rest)
    rw [hone 0 n hn, Nat.zero_mul, Nat.zero_add]
  · intro n digits _ ih rest
    have hsplit : n / 16 * 16 + n % 16 = n := by
      rw [Nat.mul_comm]
      exact Nat.div_add_mod n 16
    rw [List.map_append, List.length_append, List.append_assoc, hexDigits?_add, ih]
    show hexDigits? 1 (n / 16) (byte (n % 16).digitChar :: rest) = some (n, rest)
    rw [hone (n / 16) (n % 16) (Nat.mod_lt n (by decide)), hsplit]

theorem length_hex_le {n width : Nat} (hwidth : 0 < width) (h : n < 16 ^ width) :
    (hex n).length ≤ width := by
  simpa [hex] using (Nat.length_toDigits_le_iff (by decide) hwidth).mpr h

/-- A number with zeros in front fills its width and is read as the number. -/
theorem hexDigits?_padZero {n width : Nat} (hwidth : 0 < width) (h : n < 16 ^ width) (rest : Text) :
    hexDigits? width 0 (padZero width (hex n) ++ rest) = some (n, rest) := by
  have hle := length_hex_le hwidth h
  have hsplit : width = (width - (hex n).length) + (hex n).length := by omega
  rw [padZero, List.append_assoc]
  conv => lhs; arg 1; rw [hsplit]
  rw [hexDigits?_add, hexDigits?_zeros]
  exact hexDigits?_hex n rest

/-- What holds of the sixteen digits holds of the bytes of a hexadecimal number of some width. -/
theorem forall_mem_padZero_hex {P : UInt8 → Prop} (h : ∀ d, d < 16 → P (byte d.digitChar))
    (width n : Nat) : ∀ b ∈ padZero width (hex n), P b := by
  intro b hb
  rcases List.mem_append.1 hb with hb | hb
  · rw [List.eq_of_mem_replicate hb]
    exact h 0 (by decide)
  · obtain ⟨c, hc, rfl⟩ := List.mem_map.1 hb
    obtain ⟨d, hd, rfl⟩ := mem_toDigits (by decide) hc
    exact h d hd

/-! ## One rune -/

/-- The ways in which a rune stands between quotes. -/
inductive Quotes : Text → Text → Prop
  /-- A well-formed sequence stands as it is, unless it would end the text or escape something. -/
  | plain {point : Nat} {bytes : Text} : Encodes point bytes → point ≠ 0x22 → point ≠ 0x5C →
    point ≠ 0x0A → Quotes bytes bytes
  /-- A quote or a backslash behind a backslash. -/
  | escaped {b : UInt8} : b = 0x22 ∨ b = 0x5C → Quotes [0x5C, b] [b]
  /-- A control character by its letter. -/
  | letter {point : Nat} {letter : UInt8} : controlLetter? point = some letter →
    Quotes [0x5C, letter] [point.toUInt8]
  /-- A byte by its two digits. -/
  | byte (b : UInt8) : Quotes (0x5C :: 0x78 :: padZero 2 (hex b.toNat)) [b]
  /-- A code point by four digits. -/
  | short {point : Nat} {bytes : Text} : Encodes point bytes → point < 0x10000 →
    Quotes (0x5C :: 0x75 :: padZero 4 (hex point)) bytes
  /-- A code point by eight digits. -/
  | long {point : Nat} {bytes : Text} : Encodes point bytes →
    Quotes (0x5C :: 0x55 :: padZero 8 (hex point)) bytes

theorem quotes_quoteRune {rune : Rune} {bytes : Text} (h : IsRune rune bytes) :
    Quotes (quoteRune rune bytes) bytes := by
  cases h with
  | stray b => exact .byte b
  | @scalar point bytes h =>
      have hascii (hpoint : point < 0x80) : bytes = [point.toUInt8] := h.ascii hpoint
      unfold quoteRune
      -- the quote and the backslash are escaped by a backslash
      by_cases hsign : point = 0x22 ∨ point = 0x5C
      · have hpoint : point < 0x80 := by omega
        have htrue : (point == 0x22 || point == 0x5C) = true := by simpa using hsign
        simp only [htrue, if_true, hascii hpoint]
        exact .escaped (by rcases hsign with rfl | rfl <;> decide)
      have hfalse : (point == 0x22 || point == 0x5C) = false := by simpa using hsign
      simp only [hfalse, Bool.false_eq_true, if_false]
      obtain ⟨hquote, hbackslash⟩ := not_or.1 hsign
      by_cases hprintable : Printable.contains point = true
      · rw [if_pos hprintable]
        have hline : point ≠ 0x0A := by
          rintro rfl
          have hcontrol : Printable.contains 0x0A = false := by decide +kernel
          rw [hcontrol] at hprintable
          cases hprintable
        exact .plain h hquote hbackslash hline
      rw [if_neg hprintable]
      split
      · next letter hletter =>
          have hpoint : point < 0x80 := by
            unfold controlLetter? at hletter
            split at hletter <;> first | decide | cases hletter
          rw [hascii hpoint]
          exact .letter hletter
      · by_cases hcontrol : point < 0x20 ∨ point = 0x7F
        · have hpoint : point < 0x80 := by omega
          have hbyte : (point.toUInt8).toNat = point :=
            UInt8.toNat_ofNat_of_lt' (show point < 256 by omega)
          rw [if_pos (by simpa using hcontrol), hascii hpoint]
          have hquotes := Quotes.byte point.toUInt8
          rwa [hbyte] at hquotes
        · rw [if_neg (by simpa using hcontrol)]
          split
          · next hshort => exact .short h hshort
          · exact .long h

/-- What stands behind a backslash is read back. -/
theorem unquoteBody_escape {letter : UInt8} {digits bytes rest : Text} (fuel : Nat)
    (h : unescape? letter (digits ++ rest) = some (bytes, rest)) :
    unquoteBody (fuel + 1) (0x5C :: letter :: (digits ++ rest))
      = (unquoteBody fuel rest).map (bytes ++ ·) := by
  show ((unescape? letter (digits ++ rest)).bind fun read =>
    (unquoteBody fuel read.2).bind fun tail => some (read.1 ++ tail)) = _
  rw [h]
  show ((unquoteBody fuel rest).bind fun tail => some (bytes ++ tail)) = _
  cases unquoteBody fuel rest <;> rfl

/-- A well-formed sequence that stands as it is is read back. -/
theorem unquoteBody_plain {point : Nat} {bytes : Text} (h : Encodes point bytes)
    (hquote : point ≠ 0x22) (hbackslash : point ≠ 0x5C) (hline : point ≠ 0x0A) (fuel : Nat)
    (rest : Text) :
    unquoteBody (fuel + 1) (bytes ++ rest) = (unquoteBody fuel rest).map (bytes ++ ·) := by
  obtain ⟨a, more, rfl⟩ : ∃ a more, bytes = a :: more := by cases h <;> exact ⟨_, _, rfl⟩
  have hne {b : UInt8} (hb : b < 0x80) (hpoint : point ≠ b.toNat) : (a == b) = false := by
    rw [beq_eq_false_iff_ne]
    rintro rfl
    by_cases hascii : point < 0x80
    · have hsingle := List.cons.inj (h.ascii hascii)
      apply hpoint
      rw [hsingle.1]
      exact (UInt8.toNat_ofNat_of_lt' (show point < 256 by omega)).symm
    · exact UInt8.not_le.2 hb (h.high (Nat.le_of_not_lt hascii) a List.mem_cons_self)
  have hread := h.firstRune rest
  have hnotQuote : (a == 0x22) = false := hne (by decide) hquote
  have hnotBackslash : (a == 0x5C) = false := hne (by decide) hbackslash
  have hnotLine : (a == 0x0A) = false := hne (by decide) hline
  simp only [List.cons_append, unquoteBody, hnotQuote, hnotBackslash, hnotLine, hread,
    List.take_left', List.drop_left', Bool.false_eq_true, if_false, bind]
  cases unquoteBody fuel rest <;> rfl

/-- One rune between quotes is read back to its bytes. -/
theorem Quotes.unquoteBody {quoted bytes : Text} (h : Quotes quoted bytes) (fuel : Nat) (rest : Text) :
    Text.unquoteBody (fuel + 1) (quoted ++ rest)
      = (Text.unquoteBody fuel rest).map (bytes ++ ·) := by
  cases h with
  | plain hencodes hquote hbackslash hline =>
      exact unquoteBody_plain hencodes hquote hbackslash hline fuel rest
  | escaped hb => rcases hb with rfl | rfl <;> exact @unquoteBody_escape _ [] _ _ fuel rfl
  | letter hletter =>
      unfold controlLetter? at hletter
      split at hletter <;>
        first
        | cases hletter
          exact @unquoteBody_escape _ [] _ _ fuel rfl
        | cases hletter
  | byte b =>
      apply unquoteBody_escape fuel
      show ((hexDigits? 2 0 (padZero 2 (hex b.toNat) ++ rest)).bind fun read =>
        some ([read.1.toUInt8], read.2)) = _
      rw [hexDigits?_padZero (by decide) b.toNat_lt]
      show some ([b.toNat.toUInt8], rest) = _
      rw [toUInt8_of_eq rfl]
  | @short point bytes hencodes hshort =>
      apply unquoteBody_escape fuel
      show ((hexDigits? 4 0 (padZero 4 (hex point) ++ rest)).bind fun read =>
        if isScalar read.1 then some (ofPoint read.1, read.2) else none) = _
      rw [hexDigits?_padZero (by decide) hshort]
      show (if isScalar point then some (ofPoint point, rest) else none) = _
      rw [if_pos hencodes.isScalar, hencodes.ofPoint]
  | @long point bytes hencodes =>
      have hbound : point < 16 ^ 8 := by
        have hscalar := hencodes.isScalar
        simp only [isScalar, Bool.or_eq_true, Bool.and_eq_true, decide_eq_true_eq] at hscalar
        omega
      apply unquoteBody_escape fuel
      show ((hexDigits? 8 0 (padZero 8 (hex point) ++ rest)).bind fun read =>
        if isScalar read.1 then some (ofPoint read.1, read.2) else none) = _
      rw [hexDigits?_padZero (by decide) hbound]
      show (if isScalar point then some (ofPoint point, rest) else none) = _
      rw [if_pos hencodes.isScalar, hencodes.ofPoint]

/-! ## Whole texts -/

theorem Quotes.ne_nil {quoted bytes : Text} (h : Quotes quoted bytes) : quoted ≠ [] := by
  cases h with
  | plain hencodes => cases hencodes <;> exact List.cons_ne_nil _ _
  | _ => exact List.cons_ne_nil _ _

/-- The runes of a text between quotes. -/
def quotedRunes (t : Text) : Text := (runesWithBytes t).flatMap fun step => quoteRune step.1 step.2

theorem quote_eq (t : Text) : quote t = 0x22 :: (quotedRunes t ++ [0x22]) := rfl

theorem unquoteBody_quotedRunes (t : Text) : ∀ fuel, (quotedRunes t).length < fuel →
    unquoteBody fuel (quotedRunes t ++ [0x22]) = some t := by
  apply runesWithBytes_induction (motive := fun t runes => ∀ fuel,
    (runes.flatMap fun step => quoteRune step.1 step.2).length < fuel →
      unquoteBody fuel ((runes.flatMap fun step => quoteRune step.1 step.2) ++ [0x22]) = some t)
  · intro fuel hfuel
    obtain ⟨fuel, rfl⟩ : ∃ n, fuel = n + 1 := Nat.exists_eq_add_one.2 hfuel
    rfl
  · intro rune bytes rest _ hrune ih fuel hfuel
    have hquotes := quotes_quoteRune hrune
    have hpos := List.length_pos_iff.2 hquotes.ne_nil
    simp only [List.flatMap_cons, List.length_append] at hfuel
    obtain ⟨fuel, rfl⟩ : ∃ n, fuel = n + 1 := ⟨fuel - 1, by omega⟩
    rw [List.flatMap_cons, List.append_assoc, hquotes.unquoteBody, ih fuel (by omega)]
    rfl

/-- A text in quotes is read back, whatever its bytes are. -/
theorem unquote_quote (t : Text) : unquote (quote t) = some t := by
  show unquoteBody ((quotedRunes t ++ [0x22]).length + 1) (quotedRunes t ++ [0x22]) = some t
  apply unquoteBody_quotedRunes
  rw [List.length_append]
  omega

end TickScript.Text
