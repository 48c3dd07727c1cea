import TickScript.Proofs.Listing.Lexer
import TickScript.Proofs.Number.Rendered
import TickScript.Proofs.Text.Quoted

/-!
# Strings and floats as lexemes

The lexer ends a string at the first quote that no backslash stands in front of. Quoting puts one in
front of every quote of the text, so the lexeme is the whole quoted text, whatever the text holds. A
float is told from an integer by its point or by its exponent, and a decimal text that has one of them
is one lexeme up to its last digit.

Strings and floats are lexemes in the sense of `IsLexeme`, as words and integers are, but the lexer
has to look further to find their ends: a string is followed through its escapes, rune by rune, and
a float through its three parts, the digits of each being read to the first byte that is none.
-/

namespace TickScript.Listing

open Text Number

/-! ## Strings -/

/-- A byte that neither ends a string nor takes the next one with it. -/
def isPlain (b : UInt8) : Bool := b != 0x22 && b != 0x5C

/-- A plain byte of a string is taken as it is. -/
theorem stringRest_plain {b : UInt8} (h : isPlain b = true) (t : Text) :
    stringRest (b :: t) = (stringRest t).map (b :: ·) := by
  simp only [isPlain, Bool.and_eq_true, bne_iff_ne] at h
  rw [stringRest]
  · exact fun _ heq _ => h.2 heq
  · exact fun _ _ heq _ => h.2 heq
  · exact fun heq => h.1 heq
  · exact fun heq _ => h.2 heq

/-- A backslash takes the byte behind it along, whatever that is. -/
theorem stringRest_escape {c : UInt8} (h : c ≠ 0x0A) (t : Text) :
    stringRest (0x5C :: c :: t) = (stringRest t).map ([0x5C, c] ++ ·) := by
  rw [stringRest]
  · rfl
  · exact h

/-- Plain bytes do not end a string. -/
theorem stringRest_append {w : Text} (h : ∀ b ∈ w, isPlain b = true) (t : Text) :
    stringRest (w ++ t) = (stringRest t).map (w ++ ·) := by
  induction w with
  | nil => simp
  | cons b w ih =>
      rw [List.forall_mem_cons] at h
      rw [List.cons_append, stringRest_plain h.1, ih h.2, Option.map_map]
      rfl

/-- A backslash with its letter, and digits behind them. -/
theorem stringRest_number {letter : UInt8} (hletter : letter ≠ 0x0A) (width n : Nat) (t : Text) :
    stringRest (0x5C :: letter :: (padZero width (hex n) ++ t))
      = (stringRest t).map (0x5C :: letter :: padZero width (hex n) ++ ·) := by
  have hplain : ∀ b ∈ padZero width (hex n), isPlain b = true :=
    forall_mem_padZero_hex (P := fun b => isPlain b = true) (by decide) width n
  rw [stringRest_escape hletter, stringRest_append hplain, Option.map_map]
  rfl

/-- One rune between quotes does not end the string. -/
theorem stringRest_quotes {quoted bytes : Text} (h : Quotes quoted bytes) (t : Text) :
    stringRest (quoted ++ t) = (stringRest t).map (quoted ++ ·) := by
  cases h with
  | @plain point _ hencodes hquote hbackslash _ =>
      apply stringRest_append
      by_cases hascii : point < 0x80
      · have hbyte : (point.toUInt8).toNat = point :=
          UInt8.toNat_ofNat_of_lt' (show point < 256 by omega)
        rw [hencodes.ascii hascii, List.forall_mem_singleton]
        simp [isPlain, ← UInt8.toNat_inj, hbyte, hquote, hbackslash]
      · intro b hb
        have hhigh := UInt8.le_iff_toNat_le.1 (hencodes.high (Nat.le_of_not_lt hascii) b hb)
        have hbound : 0x80 ≤ b.toNat := hhigh
        simp only [isPlain, Bool.and_eq_true, bne_iff_ne, ne_eq, ← UInt8.toNat_inj]
        exact ⟨fun hquote => by rw [hquote] at hbound; exact absurd hbound (by decide),
          fun hbackslash => by rw [hbackslash] at hbound; exact absurd hbound (by decide)⟩
  | escaped hb => exact stringRest_escape (by rcases hb with rfl | rfl <;> decide) t
  | letter hletter =>
      apply stringRest_escape
      unfold controlLetter? at hletter
      split at hletter <;>
        first
        | cases hletter
          decide
        | cases hletter
  | byte b => exact stringRest_number (by decide) 2 b.toNat t
  | @short point _ _ _ => exact stringRest_number (by decide) 4 point t
  | @long point _ _ => exact stringRest_number (by decide) 8 point t

/-- Quoted text ends at the quote behind it and not before. -/
theorem stringRest_quotedRunes (t rest : Text) :
    stringRest (quotedRunes t ++ 0x22 :: rest) = some (quotedRunes t ++ [0x22]) := by
  apply runesWithBytes_induction (motive := fun _ runes =>
    stringRest ((runes.flatMap fun step => quoteRune step.1 step.2) ++ 0x22 :: rest)
      = some ((runes.flatMap fun step => quoteRune step.1 step.2) ++ [0x22]))
  · rfl
  · intro rune bytes t _ hrune ih
    rw [List.flatMap_cons, List.append_assoc, stringRest_quotes (quotes_quoteRune hrune), ih,
      Option.map_some, List.append_assoc]

/-- A quoted text is one lexeme. -/
theorem isLexeme_quote (t : Text) : IsLexeme .string (quote t) := by
  rw [quote_eq]
  refine ⟨⟨0x22, quotedRunes t ++ [0x22], rfl, rfl⟩, ?_⟩
  intro rest _
  rw [List.cons_append, List.append_assoc]
  show (stringRest (quotedRunes t ++ 0x22 :: rest)).map (fun text => (some LexemeKind.string, 0x22 :: text))
    = _
  rw [stringRest_quotedRunes]
  rfl

/-! ## Floats -/

/-- What a number starts with starts no word, and if a float is in front it is the lexeme. -/
theorem lexemeAt_of_floatAt {b : UInt8} {t w : Text} (hb : startsInt b = true)
    (hfloat : floatAt (b :: t) = some w) : lexemeAt (b :: t) = some (some .float, w) := by
  have hother (c : UInt8) (hc : startsInt c = false) : b ≠ c := ne_of_class hb hc
  have hnone : nameAt (b :: t) = none := by simp [nameAt, startsName_of_startsInt hb]
  simp only [lexemeAt, hnone, hfloat, beq_iff_eq, hother 0x3B rfl, hother 0x20 rfl, hother 0x09 rfl,
    hother 0x0D rfl, hother 0x0A rfl, hother 0x2E rfl, if_false, or_self, Bool.or_eq_true,
    Bool.and_eq_true, false_and]

/-- Digits are read up to the first byte that is none. -/
theorem digitsAt_append {digits rest : Text} (hne : digits ≠ [])
    (hdigits : ∀ b ∈ digits, isDigit b = true) (hrest : ∀ b ∈ rest.head?, isDigit b = false) :
    digitsAt (digits ++ rest) = some digits := by
  rw [digitsAt, takeWhile_append_stop hdigits hrest, if_neg (by simpa using hne)]

section

variable {d : DecimalText} (h : d.Proper) {rest : Text} (hstops : Stops rest)

include hstops

/-- A digit stands neither behind a number nor in front of its exponent. -/
theorem not_isDigit_behind : ∀ b ∈ (d.exponentText ++ rest).head?, isDigit b = false := by
  intro b hb
  rw [DecimalText.exponentText] at hb
  cases hexponent : d.exponent? with
  | none =>
      rw [hexponent] at hb
      exact hstops.head rfl rfl rfl b hb
  | some e =>
      rw [hexponent] at hb
      obtain rfl : 0x65 = b := Option.some.inj hb
      rfl

/-- The exponent is found with its mark and its sign. -/
theorem exponentAt_exponentText :
    (exponentAt (d.exponentText ++ rest)).getD [] = d.exponentText
      ∧ (d.exponent?.isSome → exponentAt (d.exponentText ++ rest) = some d.exponentText) := by
  rw [DecimalText.exponentText]
  cases d.exponent? with
  | none =>
      obtain ⟨b, tail, rfl, hb⟩ := hstops
      have hnone : exponentAt (b :: tail) = none := by rcases hb with rfl | rfl | rfl <;> rfl
      refine ⟨?_, fun hsome => absurd hsome (by decide)⟩
      rw [List.nil_append, hnone]
      rfl
  | some e =>
      have hdigits := digitsAt_append (show padZero 2 (ofNat e.natAbs) ≠ [] from
          List.append_ne_nil_of_right_ne_nil _ (ofNat_ne_nil _))
        (fun b hb => isDigit_of_mem_padZero hb) (hstops.head rfl rfl rfl)
      have hfound : exponentAt ((0x65 :: (if e < 0 then 0x2D else 0x2B)
          :: padZero 2 (ofNat e.natAbs)) ++ rest)
          = some (0x65 :: (if e < 0 then 0x2D else 0x2B) :: padZero 2 (ofNat e.natAbs)) := by
        by_cases hsign : e < 0
        · rw [if_pos hsign]
          show (digitsAt (padZero 2 (ofNat e.natAbs) ++ rest)).map (0x65 :: [0x2D] ++ ·) = _
          rw [hdigits]
          rfl
        · rw [if_neg hsign]
          show (digitsAt (padZero 2 (ofNat e.natAbs) ++ rest)).map (0x65 :: [0x2B] ++ ·) = _
          rw [hdigits]
          rfl
      exact ⟨by rw [hfound]; rfl, fun _ => hfound⟩

include h

/-- A number with a point or an exponent is found up to its last digit. -/
theorem floatAt_withSign (hwhole : d.isWhole = false) (negative : Bool) :
    floatAt (withSign negative d.text ++ rest) = some (withSign negative d.text) := by
  have hsign : signAt (withSign negative d.text ++ rest) = withSign negative [] := by
    cases negative with
    | true => rfl
    | false =>
        obtain ⟨b, tail, htext, hb⟩ := h.exists_head
        show signAt (d.text ++ rest) = []
        rw [htext, List.cons_append]
        exact signAt_of_digit hb _
  have hbody : (withSign negative d.text ++ rest).drop (withSign negative []).length
      = d.whole ++ (d.pointText ++ (d.exponentText ++ rest)) := by
    have hdrop : (withSign negative d.text ++ rest).drop (withSign negative []).length
        = d.text ++ rest := by cases negative <;> rfl
    rw [hdrop, DecimalText.text, List.append_assoc, List.append_assoc]
  -- what stands behind the digits: an exponent or none, and then no digit
  have hexponent := exponentAt_exponentText (d := d) hstops
  have hbehind := not_isDigit_behind (d := d) hstops
  have hfraction := h.fraction
  have hfirst : ∀ b ∈ (d.pointText ++ (d.exponentText ++ rest)).head?, isDigit b = false := by
    rw [DecimalText.pointText]
    cases d.fraction? with
    | none => exact hbehind
    | some digits =>
        intro b hb
        obtain rfl : 0x2E = b := Option.some.inj hb
        rfl
  -- the digits before the point are the longest run of digits
  have hdigits := digitsAt_append h.nonempty h.whole hfirst
  have hshape : withSign negative d.text
      = withSign negative [] ++ (d.whole ++ (d.pointText ++ d.exponentText)) := by
    cases negative <;> rfl
  unfold floatAt
  simp only [hsign, hbody, hdigits, Option.bind_eq_bind, Option.bind_some, List.drop_left]
  rw [hshape]
  rw [DecimalText.fraction] at hfraction
  rw [DecimalText.pointText]
  cases hpoint : d.fraction? with
  | some digits =>
      rw [hpoint] at hfraction
      have hrun : (digits ++ (d.exponentText ++ rest)).takeWhile isDigit = digits :=
        takeWhile_append_stop hfraction hbehind
      simp only [List.cons_append, hrun, List.drop_left, hexponent.1, List.append_assoc]
  | none =>
      -- without a point it is the exponent that makes the number a float
      obtain ⟨e, hsome⟩ : ∃ e, d.exponent? = some e := by
        rw [DecimalText.isWhole, hpoint] at hwhole
        simpa [Option.isSome_iff_exists] using hwhole
      have hfound := hexponent.2 (by rw [hsome]; rfl)
      have hmark : ∃ tail, d.exponentText ++ rest = 0x65 :: tail := by
        rw [DecimalText.exponentText, hsome]
        exact ⟨_, rfl⟩
      obtain ⟨tail, htail⟩ := hmark
      rw [List.nil_append, List.nil_append]
      split
      · next heq =>
          rw [htail] at heq
          exact absurd (List.cons.inj heq).1 (by decide)
      · rw [hfound, Option.bind_some, List.append_assoc]

end

/-- A number with a point or an exponent is one lexeme. -/
theorem isLexeme_float {d : DecimalText} (h : d.Proper) (hwhole : d.isWhole = false)
    (negative : Bool) : IsLexeme .float (withSign negative d.text) := by
  obtain ⟨b, t, htext, hb⟩ : ∃ b t, withSign negative d.text = b :: t ∧ startsInt b = true := by
    cases negative with
    | true => exact ⟨0x2D, d.text, rfl, rfl⟩
    | false =>
        obtain ⟨b, t, htext, hb⟩ := h.exists_head
        exact ⟨b, t, htext, by rw [startsInt, hb, Bool.true_or]⟩
  refine ⟨⟨b, t, htext, isSolid_of_class hb rfl rfl rfl⟩, ?_⟩
  intro rest hstops
  have hfloat := floatAt_withSign h hstops hwhole negative
  rw [htext] at hfloat ⊢
  exact lexemeAt_of_floatAt hb hfloat

end TickScript.Listing
