import TickScript.Proofs.Listing.Number
import TickScript.Proofs.Path

/-!
# How the lines of a listing are cut

A listing is made of words, numbers, brackets and blanks, and at each of them the lexer has a choice:
a word may go on, a number may be the start of a float, blanks may be more than one. What keeps the
pieces apart is the byte behind them. `Spells` is the text of a listing cut into pieces, each of them
the one that the lexer finds in front of the rest, so it is built from the end of the text; reading
it gives the pieces back without the blanks.

Two conditions replace a case analysis over neighbours. `Stops` says that what follows ends a word
or a number; `IsLexeme` says that a text is read whole in front of anything that stops it. A blank,
an end of line and a closing bracket stop everything, and each construct of a listing ends in one of
them, so the construction from the end never has to look further than one byte ahead.
-/

namespace TickScript.Listing

open Text

/-- A lexeme without its place. -/
abbrev Bare := LexemeKind × Text

def Lexeme.bare (l : Lexeme) : Bare := (l.kind, l.text)

/-! ## Texts in pieces -/

/-- A text is cut into pieces, of which some are lexemes. -/
inductive Spells : Text → List Bare → Prop
  /-- Nothing is left to read. -/
  | nil : Spells [] []
  /-- A piece that the lexer skips. -/
  | blank {w rest : Text} {out : List Bare} : w ≠ [] → lexemeAt (w ++ rest) = some (none, w) →
    Spells rest out → Spells (w ++ rest) out
  /-- A piece that becomes a lexeme. -/
  | lexeme {kind : LexemeKind} {w rest : Text} {out : List Bare} : w ≠ [] →
    lexemeAt (w ++ rest) = some (some kind, w) → Spells rest out →
    Spells (w ++ rest) ((kind, w) :: out)

/-- One piece of a text. -/
theorem lexemesFrom_append {w rest : Text} {kind? : Option LexemeKind} (hne : w ≠ [])
    (hpiece : lexemeAt (w ++ rest) = some (kind?, w)) (fuel : Nat) (place : Place) :
    lexemesFrom (fuel + 1) place (w ++ rest) = (do
      let more ← lexemesFrom fuel (place.after w) rest
      match kind? with
      | some kind => return ⟨kind, w, place⟩ :: more
      | none => return more) := by
  obtain ⟨b, t, hcons⟩ := List.exists_cons_of_ne_nil (List.append_ne_nil_of_left_ne_nil hne rest)
  rw [hcons, lexemesFrom]
  · rw [← hcons, hpiece]
    cases kind? <;> simp only [List.drop_left]
  · simp

/-- The lexer finds the pieces. -/
theorem Spells.lexemesFrom {t : Text} {out : List Bare} (h : Spells t out) :
    ∀ fuel place, t.length ≤ fuel → ∃ ls, Listing.lexemesFrom fuel place t = .ok ls
      ∧ ls.map Lexeme.bare = out := by
  induction h with
  | nil =>
      intro fuel place _
      cases fuel <;> exact ⟨[], rfl, rfl⟩
  | @blank w rest out hne hpiece _ ih =>
      intro fuel place hfuel
      have hpos := List.length_pos_iff.2 hne
      rw [List.length_append] at hfuel
      obtain ⟨fuel, rfl⟩ : ∃ n, fuel = n + 1 := ⟨fuel - 1, by omega⟩
      obtain ⟨ls, hls, hbare⟩ := ih fuel (place.after w) (by omega)
      refine ⟨ls, ?_, hbare⟩
      rw [lexemesFrom_append hne hpiece, hls]
      rfl
  | @lexeme kind w rest out hne hpiece _ ih =>
      intro fuel place hfuel
      have hpos := List.length_pos_iff.2 hne
      rw [List.length_append] at hfuel
      obtain ⟨fuel, rfl⟩ : ∃ n, fuel = n + 1 := ⟨fuel - 1, by omega⟩
      obtain ⟨ls, hls, hbare⟩ := ih fuel (place.after w) (by omega)
      refine ⟨⟨kind, w, place⟩ :: ls, ?_, ?_⟩
      · rw [lexemesFrom_append hne hpiece, hls]
        rfl
      · rw [List.map_cons, hbare]
        rfl

/-! ## Words and numbers -/

/-- A blank, an end of line or a closing bracket follows. -/
def Stops (rest : Text) : Prop :=
  ∃ b tail, rest = b :: tail ∧ (b = 0x20 ∨ b = 0x0A ∨ b = 0x5D)

/-- A blank is none of the bytes of a class that has neither it nor the other two. -/
theorem Stops.head {rest : Text} (h : Stops rest) {p : UInt8 → Bool} (hblank : p 0x20 = false)
    (hline : p 0x0A = false) (hbracket : p 0x5D = false) : ∀ b ∈ rest.head?, p b = false := by
  obtain ⟨b, tail, rfl, hb⟩ := h
  intro b' hb'
  obtain rfl : b = b' := Option.some.inj hb'
  rcases hb with rfl | rfl | rfl <;> assumption

/-- Not a blank. -/
def isSolid (b : UInt8) : Bool := b != 0x20 && b != 0x09 && b != 0x0D

/-- A class of bytes without the blanks is solid. -/
theorem isSolid_of_class {p : UInt8 → Bool} {b : UInt8} (hb : p b = true) (hblank : p 0x20 = false)
    (htab : p 0x09 = false) (hreturn : p 0x0D = false) : isSolid b = true := by
  simp only [isSolid, Bool.and_eq_true, bne_iff_ne]
  exact ⟨⟨ne_of_class hb hblank, ne_of_class hb htab⟩, ne_of_class hb hreturn⟩

/-- The text is a lexeme of a kind wherever it stands in front of a blank, an end of line or a closing
bracket. -/
structure IsLexeme (kind : LexemeKind) (w : Text) : Prop where
  solid : ∃ b t, w = b :: t ∧ isSolid b = true
  found : ∀ rest, Stops rest → lexemeAt (w ++ rest) = some (some kind, w)

theorem IsLexeme.ne_nil {kind : LexemeKind} {w : Text} (h : IsLexeme kind w) : w ≠ [] := by
  obtain ⟨b, t, rfl, -⟩ := h.solid
  exact List.cons_ne_nil b t

/-- What a name starts with starts nothing else. -/
theorem lexemeAt_of_nameAt {b : UInt8} {t name : Text} (hstart : startsName b = true)
    (hname : nameAt (b :: t) = some name) : lexemeAt (b :: t)
      = if (b :: t)[name.length]? == some 0x3A then some (some .label, name ++ [0x3A])
        else some (some .ident, name) := by
  have hother (c : UInt8) (hc : startsName c = false) : b ≠ c := ne_of_class hstart hc
  simp only [lexemeAt, hname, beq_iff_eq, hother 0x3B rfl, hother 0x20 rfl, hother 0x09 rfl,
    hother 0x0D rfl, hother 0x0A rfl, hother 0x2E rfl, if_false, or_self, Bool.or_eq_true,
    Bool.and_eq_true, false_and]

/-- A name is one word of the lexer. -/
theorem isLexeme_name {w : Text} (h : isName w = true) : IsLexeme .ident w := by
  obtain ⟨b, t, rfl, hstart, hrest⟩ := exists_of_isName h
  refine ⟨⟨b, t, rfl, isSolid_of_class hstart rfl rfl rfl⟩, ?_⟩
  intro rest hstops
  have hrun : (t ++ rest).takeWhile inName = t :=
    takeWhile_append_stop hrest (hstops.head rfl rfl rfl)
  have hname : nameAt (b :: (t ++ rest)) = some (b :: t) := by
    simp [nameAt, hstart, hrun]
  have hbehind : (b :: (t ++ rest))[(b :: t).length]? ≠ some 0x3A := by
    obtain ⟨c, tail, rfl, hc⟩ := hstops
    rcases hc with rfl | rfl | rfl <;> simp
  rw [List.cons_append, lexemeAt_of_nameAt hstart hname, if_neg (by simpa using hbehind)]

/-- A name with a colon behind it is a label, not a name. -/
theorem lexemeAt_label {w : Text} (h : isName w = true) (rest : Text) :
    lexemeAt (w ++ [0x3A] ++ rest) = some (some .label, w ++ [0x3A]) := by
  obtain ⟨b, t, rfl, hstart, hrest⟩ := exists_of_isName h
  have hrun : (t ++ (0x3A :: rest)).takeWhile inName = t :=
    takeWhile_append_stop hrest (by simp [inName, isWord, isLetter, isLower, isUpper, isDigit])
  have hname : nameAt (b :: (t ++ (0x3A :: rest))) = some (b :: t) := by
    simp [nameAt, hstart, hrun]
  rw [List.append_assoc, List.cons_append, List.cons_append, List.nil_append,
    lexemeAt_of_nameAt hstart hname, if_pos (by simp)]

/-- A digit or a minus sign. -/
def startsInt (b : UInt8) : Bool := isDigit b || b == 0x2D

theorem startsName_of_startsInt {b : UInt8} (h : startsInt b = true) : startsName b = false := by
  rw [Bool.eq_false_iff]
  simp [startsInt, startsName, isLetter, isLower, isUpper, isDigit, UInt8.le_iff_toNat_le,
    ← UInt8.toNat_inj] at h ⊢
  omega

/-- What a number starts with starts no word and no float, if there is neither a point nor an exponent
behind its digits. -/
theorem lexemeAt_of_intAt {b : UInt8} {t w : Text} (hb : startsInt b = true)
    (hfloat : floatAt (b :: t) = none) (hint : intAt (b :: t) = some w) :
    lexemeAt (b :: t) = some (some .int, w) := by
  have hother (c : UInt8) (hc : startsInt c = false) : b ≠ c := ne_of_class hb hc
  have hnone : nameAt (b :: t) = none := by simp [nameAt, startsName_of_startsInt hb]
  simp only [lexemeAt, hnone, hfloat, hint, beq_iff_eq, hother 0x3B rfl, hother 0x20 rfl,
    hother 0x09 rfl, hother 0x0D rfl, hother 0x0A rfl, hother 0x2E rfl, if_false, or_self,
    Bool.or_eq_true, Bool.and_eq_true, false_and]

theorem signAt_of_digit {b : UInt8} (hb : isDigit b = true) (t : Text) : signAt (b :: t) = [] := by
  unfold signAt
  split
  · next heq =>
      rw [(List.cons.inj heq).1] at hb
      cases hb
  · next heq =>
      rw [(List.cons.inj heq).1] at hb
      cases hb
  · rfl

/-- A numeral is read up to where the digits stop. -/
theorem digitsAt_ofNat (n : Nat) {rest : Text} (h : Stops rest) :
    digitsAt (ofNat n ++ rest) = some (ofNat n) := by
  have hrun : (ofNat n ++ rest).takeWhile isDigit = ofNat n :=
    takeWhile_append_stop (fun b hb => isDigit_of_mem_ofNat hb) (h.head rfl rfl rfl)
  rw [digitsAt, hrun, if_neg (by simpa using ofNat_ne_nil n)]

section

variable {t digits rest : Text} (hbody : t.drop (signAt t).length = digits ++ rest)
  (hdigits : digitsAt (digits ++ rest) = some digits)

include hbody hdigits

/-- Without a point or an exponent behind its digits a number is no float. -/
theorem floatAt_eq_none (hrest : ∀ b ∈ rest.head?, b ≠ 0x2E ∧ b ≠ 0x65 ∧ b ≠ 0x45) :
    floatAt t = none := by
  have hexponent : exponentAt rest = none := by
    cases rest with
    | nil => rfl
    | cons b tail =>
        obtain ⟨-, hlower, hupper⟩ := hrest b rfl
        have hmark : (b == byte 'e' || b == byte 'E') = false := by
          rw [Bool.or_eq_false_iff, beq_eq_false_iff_ne, beq_eq_false_iff_ne]
          exact ⟨hlower, hupper⟩
        simp [exponentAt, hmark]
  unfold floatAt
  simp only [hbody, hdigits, Option.bind_eq_bind, Option.bind_some, List.drop_left]
  split
  · exact absurd rfl (hrest 0x2E rfl).1
  · rw [hexponent]
    rfl

/-- Digits without an x in second place are decimal. -/
theorem intAt_eq_decimal (hsecond : ∀ b ∈ (digits ++ rest)[1]?, lowerByte b ≠ 0x78) :
    intAt t = some (signAt t ++ digits) := by
  unfold intAt
  simp only [hbody, hdigits, Option.map_some]
  split
  · next b tail heq =>
      have hmark : (lowerByte b == byte 'x') = false := by
        rw [beq_eq_false_iff_ne]
        exact hsecond b (by rw [heq]; rfl)
      simp [hmark]
  · rfl

end

/-- The byte behind the first digit of a decimal number does not mark a base. -/
theorem second_of_decimal (n : Nat) {rest : Text} (h : Stops rest) :
    ∀ b ∈ (ofNat n ++ rest)[1]?, lowerByte b ≠ 0x78 := by
  have hdigit : ∀ b ∈ ofNat n, lowerByte b ≠ 0x78 :=
    forall_mem_ofNat (P := (lowerByte · ≠ 0x78)) (by decide) n
  obtain ⟨d, ds, hcons⟩ := List.exists_cons_of_ne_nil (ofNat_ne_nil n)
  intro b hb
  rw [hcons, List.cons_append, List.getElem?_cons_succ] at hb
  cases ds with
  | nil =>
      obtain ⟨c, tail, rfl, hc⟩ := h
      obtain rfl : c = b := by simpa using hb
      rcases hc with rfl | rfl | rfl <;> decide
  | cons d' ds =>
      obtain rfl : d' = b := by simpa using hb
      exact hdigit d' (by simp [hcons])

/-- A printed integer is one number, its sign included. -/
theorem isLexeme_ofInt (n : Int) : IsLexeme .int (ofInt n) := by
  have hpoint {rest : Text} (h : Stops rest) :
      ∀ b ∈ rest.head?, b ≠ 0x2E ∧ b ≠ 0x65 ∧ b ≠ 0x45 := by
    obtain ⟨c, tail, rfl, hc⟩ := h
    intro b hb
    obtain rfl : c = b := Option.some.inj hb
    rcases hc with rfl | rfl | rfl <;> decide
  obtain ⟨d, ds, hcons⟩ := List.exists_cons_of_ne_nil (ofNat_ne_nil n.natAbs)
  have hd : isDigit d = true := isDigit_of_mem_ofNat (n := n.natAbs) (by simp [hcons])
  have hstart : startsInt d = true := by rw [startsInt, hd, Bool.true_or]
  by_cases hn : n < 0
  · rw [ofInt, if_pos hn]
    refine ⟨⟨0x2D, ofNat n.natAbs, rfl, rfl⟩, ?_⟩
    intro rest hstops
    have hbody : (0x2D :: (ofNat n.natAbs ++ rest)).drop
        (signAt (0x2D :: (ofNat n.natAbs ++ rest))).length = ofNat n.natAbs ++ rest := rfl
    exact lexemeAt_of_intAt rfl
      (floatAt_eq_none hbody (digitsAt_ofNat _ hstops) (hpoint hstops))
      (intAt_eq_decimal hbody (digitsAt_ofNat _ hstops) (second_of_decimal _ hstops))
  · rw [ofInt, if_neg hn]
    refine ⟨⟨d, ds, hcons, isSolid_of_class hd rfl rfl rfl⟩, ?_⟩
    intro rest hstops
    have hsign : signAt (ofNat n.natAbs ++ rest) = [] := by
      rw [hcons]
      exact signAt_of_digit hd _
    have hbody : (ofNat n.natAbs ++ rest).drop (signAt (ofNat n.natAbs ++ rest)).length
        = ofNat n.natAbs ++ rest := by rw [hsign]; rfl
    have hfloat := floatAt_eq_none hbody (digitsAt_ofNat _ hstops) (hpoint hstops)
    have hint := intAt_eq_decimal hbody (digitsAt_ofNat _ hstops) (second_of_decimal _ hstops)
    rw [hsign, List.nil_append] at hint
    rw [hcons] at hfloat hint ⊢
    exact lexemeAt_of_intAt hstart hfloat hint

theorem isLexeme_ofNat (n : Nat) : IsLexeme .int (ofNat n) := by
  have hnat : ofInt (n : Int) = ofNat n := by
    rw [ofInt, if_neg (by omega), Int.natAbs_natCast]
  exact hnat ▸ isLexeme_ofInt n

/-- A hexadecimal word is one number. -/
theorem isLexeme_hexWord (n : Nat) : IsLexeme .int (Number.hexWord n) := by
  refine ⟨⟨0x30, 0x78 :: upper (hex n), rfl, rfl⟩, ?_⟩
  intro rest hstops
  show lexemeAt (0x30 :: 0x78 :: (upper (hex n) ++ rest)) = _
  have hbytes : ∀ b ∈ upper (hex n), isHexDigit b = true :=
    forall_mem_upper_hex (P := fun b => isHexDigit b = true) (by decide) n
  have hrun : (upper (hex n) ++ rest).takeWhile isHexDigit = upper (hex n) :=
    takeWhile_append_stop hbytes (hstops.head rfl rfl rfl)
  have hne : (upper (hex n)).isEmpty = false := by
    rw [List.isEmpty_eq_false_iff]
    exact mt List.map_eq_nil_iff.1 (hex_ne_nil n)
  -- the digits in front of the mark are the lone zero
  have hfloat : floatAt (0x30 :: 0x78 :: (upper (hex n) ++ rest)) = none :=
    @floatAt_eq_none _ [0x30] (0x78 :: (upper (hex n) ++ rest)) rfl rfl (by simp)
  have hint : intAt (0x30 :: 0x78 :: (upper (hex n) ++ rest)) = some (Number.hexWord n) := by
    show (if (true && !((upper (hex n) ++ rest).takeWhile isHexDigit).isEmpty) = true
      then some (0x30 :: 0x78 :: (upper (hex n) ++ rest).takeWhile isHexDigit) else _) = _
    rw [hrun, hne]
    rfl
  exact lexemeAt_of_intAt rfl hfloat hint

/-! ## Blanks, ends of lines and brackets -/

theorem lexemeAt_endOfLine (rest : Text) :
    lexemeAt ([0x0A] ++ rest) = some (some .endOfLine, [0x0A]) := rfl

/-- A bracket is a lexeme by itself. -/
theorem lexemeAt_bracket {b : UInt8} (hb : b = 0x5B ∨ b = 0x5D) (rest : Text) :
    lexemeAt ([b] ++ rest) = some (some .bracket, [b]) := by
  rcases hb with rfl | rfl <;> rfl

/-- Blanks in front of something else. -/
theorem lexemeAt_blanks (count : Nat) {b : UInt8} (hb : isSolid b = true) (rest : Text) :
    lexemeAt (List.replicate (count + 1) 0x20 ++ b :: rest)
      = some (none, List.replicate (count + 1) 0x20) := by
  have hrun : (List.replicate count 0x20 ++ b :: rest).takeWhile
      (fun c => c == 0x20 || c == 0x09 || c == 0x0D) = List.replicate count 0x20 := by
    apply takeWhile_append_stop
    · intro c hc
      rw [List.eq_of_mem_replicate hc]
      rfl
    · intro c hc
      obtain rfl : b = c := Option.some.inj hc
      simpa [isSolid, and_assoc] using hb
  rw [List.replicate_succ, List.cons_append]
  show some (none, 0x20 :: (List.replicate count 0x20 ++ b :: rest).takeWhile
    (fun c => c == 0x20 || c == 0x09 || c == 0x0D)) = _
  rw [hrun]

/-! ## Lines -/

/-- The operand of an instruction as it is written. -/
def Argument.text : Argument → Text
  | .bytes items => 0x5B :: (join [0x20] items ++ [0x5D])
  | .int text => text
  | .float text => text
  | .string text => text
  | .ident name => name

/-- The lexemes of an operand. -/
def Argument.lexemes : Argument → List Bare
  | .bytes items => (.bracket, [0x5B]) :: (items.map (LexemeKind.int, ·) ++ [(.bracket, [0x5D])])
  | .int text => [(.int, text)]
  | .float text => [(.float, text)]
  | .string text => [(.string, text)]
  | .ident name => [(.ident, name)]

/-- An operand whose words and numbers are lexemes. -/
def Argument.Lexical : Argument → Prop
  | .bytes items => ∀ item ∈ items, IsLexeme .int item
  | .int text => IsLexeme .int text
  | .float text => IsLexeme .float text
  | .string text => IsLexeme .string text
  | .ident name => IsLexeme .ident name

/-- A line of a function, without its place. -/
inductive Row where
  | label (name : Text)
  | instr (mnemonic : Text) (args : List Argument)

namespace Row

def text : Row → Text
  | label name => name ++ [0x3A, 0x0A]
  | instr mnemonic args =>
    List.replicate 4 0x20 ++ mnemonic ++ args.flatMap (fun a => 0x20 :: a.text) ++ [0x0A]

def lexemes : Row → List Bare
  | label name => [(.label, name ++ [0x3A]), (.endOfLine, [0x0A])]
  | instr mnemonic args =>
    (.ident, mnemonic) :: (args.flatMap Argument.lexemes ++ [(.endOfLine, [0x0A])])

def Lexical : Row → Prop
  | label name => isName name = true
  | instr mnemonic args => isName mnemonic = true ∧ ∀ a ∈ args, a.Lexical

end Row

section

variable {rest : Text} {out : List Bare} (h : Spells rest out)

include h

theorem Spells.endOfLine : Spells (0x0A :: rest) ((.endOfLine, [0x0A]) :: out) :=
  .lexeme (List.cons_ne_nil _ _) (lexemeAt_endOfLine rest) h

theorem Spells.bracket {b : UInt8} (hb : b = 0x5B ∨ b = 0x5D) :
    Spells (b :: rest) ((.bracket, [b]) :: out) :=
  .lexeme (List.cons_ne_nil _ _) (lexemeAt_bracket hb rest) h

/-- A word ends where a blank, a bracket or the end of the line stops it. -/
theorem Spells.word {kind : LexemeKind} {w : Text} (hw : IsLexeme kind w) (hstops : Stops rest) :
    Spells (w ++ rest) ((kind, w) :: out) :=
  .lexeme hw.ne_nil (hw.found rest hstops) h

/-- Blanks are skipped up to the next solid byte. -/
theorem Spells.blanks (count : Nat) (hsolid : ∃ b t, rest = b :: t ∧ isSolid b = true) :
    Spells (List.replicate (count + 1) 0x20 ++ rest) out := by
  obtain ⟨b, t, rfl, hb⟩ := hsolid
  exact .blank (List.cons_ne_nil _ _) (lexemeAt_blanks count hb t) h

/-- A word behind one blank. -/
theorem Spells.nextWord {kind : LexemeKind} {w : Text} (hw : IsLexeme kind w) (hstops : Stops rest) :
    Spells (0x20 :: (w ++ rest)) ((kind, w) :: out) := by
  obtain ⟨b, t, hcons, hsolid⟩ := hw.solid
  exact (h.word hw hstops).blanks 0 ⟨b, t ++ rest, by rw [hcons, List.cons_append], hsolid⟩

/-- The items of a byte list, up to its closing bracket. -/
theorem Spells.items {items : List Text} (hitems : ∀ item ∈ items, IsLexeme .int item) :
    Spells (join [0x20] items ++ 0x5D :: rest)
      (items.map (LexemeKind.int, ·) ++ (.bracket, [0x5D]) :: out) := by
  have hclosing : Spells (0x5D :: rest) ((.bracket, [0x5D]) :: out) := h.bracket (.inr rfl)
  induction items with
  | nil => exact hclosing
  | cons item items ih =>
      rw [List.forall_mem_cons] at hitems
      cases items with
      | nil =>
          rw [join_singleton]
          exact hclosing.word hitems.1 ⟨0x5D, rest, rfl, .inr (.inr rfl)⟩
      | cons next items =>
          obtain ⟨b, t, hcons, hsolid⟩ := (hitems.2 next List.mem_cons_self).solid
          rw [join_cons_cons, List.append_assoc, List.append_assoc]
          refine Spells.word ?_ hitems.1 ⟨0x20, _, rfl, .inl rfl⟩
          refine Spells.blanks (ih hitems.2) 0 ?_
          cases items with
          | nil => exact ⟨b, t ++ 0x5D :: rest, by rw [join_singleton, hcons]; rfl, hsolid⟩
          | cons other items => exact ⟨b, _, by rw [join_cons_cons, hcons]; rfl, hsolid⟩

/-- An operand behind its blank. -/
theorem Spells.argument {a : Argument} (ha : a.Lexical) (hstops : Stops rest) :
    Spells (0x20 :: (a.text ++ rest)) (a.lexemes ++ out) := by
  cases a with
  | bytes items =>
      have hinside : Spells (0x5B :: (join [0x20] items ++ 0x5D :: rest))
          (Argument.lexemes (.bytes items) ++ out) := by
        have hopened := (h.items ha).bracket (b := 0x5B) (.inl rfl)
        simpa [Argument.lexemes] using hopened
      have htext : Argument.text (.bytes items) ++ rest
          = 0x5B :: (join [0x20] items ++ 0x5D :: rest) := by simp [Argument.text]
      rw [htext]
      exact hinside.blanks 0 ⟨0x5B, _, rfl, rfl⟩
  | int text => exact h.nextWord ha hstops
  | float text => exact h.nextWord ha hstops
  | string text => exact h.nextWord ha hstops
  | ident name => exact h.nextWord ha hstops

end

/-- A blank in front of each argument stops the one before it. -/
theorem stops_arguments {args : List Argument} {rest : Text} (hstops : Stops rest) :
    Stops (args.flatMap (fun a => 0x20 :: a.text) ++ rest) := by
  cases args with
  | nil => exact hstops
  | cons a args => exact ⟨0x20, _, rfl, .inl rfl⟩

/-- Arguments are cut at the blanks between them. -/
theorem Spells.arguments {rest : Text} {out : List Bare} (h : Spells rest out) (hstops : Stops rest)
    {args : List Argument} (hargs : ∀ a ∈ args, a.Lexical) :
    Spells (args.flatMap (fun a => 0x20 :: a.text) ++ rest)
      (args.flatMap Argument.lexemes ++ out) := by
  induction args with
  | nil => exact h
  | cons a args ih =>
      rw [List.forall_mem_cons] at hargs
      rw [List.flatMap_cons, List.flatMap_cons, List.append_assoc, List.append_assoc]
      exact (ih hargs.2).argument hargs.1 (stops_arguments hstops)

/-- A row is cut into its label or into its mnemonic and arguments. -/
theorem Spells.row {rest : Text} {out : List Bare} (h : Spells rest out) {r : Row} (hr : r.Lexical) :
    Spells (r.text ++ rest) (r.lexemes ++ out) := by
  cases r with
  | label name =>
      have hlabel : Spells (name ++ [0x3A] ++ 0x0A :: rest)
          ((.label, name ++ [0x3A]) :: (.endOfLine, [0x0A]) :: out) :=
        .lexeme (by simp) (lexemeAt_label hr _) h.endOfLine
      simpa [Row.text, Row.lexemes] using hlabel
  | instr mnemonic args =>
      obtain ⟨hmnemonic, hargs⟩ := hr
      have hword := isLexeme_name hmnemonic
      obtain ⟨b, t, hcons, hsolid⟩ := hword.solid
      have hstops : Stops (0x0A :: rest) := ⟨0x0A, rest, rfl, .inr (.inl rfl)⟩
      have hline := (h.endOfLine.arguments hstops hargs).word hword (stops_arguments hstops)
      have hindented := hline.blanks 3 ⟨b, _, by rw [hcons, List.cons_append], hsolid⟩
      simpa [Row.text, Row.lexemes] using hindented

/-- Rows are cut one after the other, each up to its line break. -/
theorem Spells.rows {rest : Text} {out : List Bare} (h : Spells rest out) {rows : List Row}
    (hrows : ∀ r ∈ rows, r.Lexical) :
    Spells (rows.flatMap Row.text ++ rest) (rows.flatMap Row.lexemes ++ out) := by
  induction rows with
  | nil => exact h
  | cons r rows ih =>
      rw [List.forall_mem_cons] at hrows
      rw [List.flatMap_cons, List.flatMap_cons, List.append_assoc, List.append_assoc]
      exact (ih hrows.2).row hrows.1

/-! ## Declarations -/

/-- A function as a listing writes it, without its place. -/
structure Written where
  /-- Whether the id is written as a name or as a number. -/
  kind : LexemeKind
  name : Text
  params : Text
  returns : Text
  rows : List Row

namespace Written

def text (f : Written) : Text :=
  ofString ".func" ++ 0x20 :: (f.name ++ 0x20 :: (f.params ++ 0x20 :: (f.returns ++ 0x0A
    :: f.rows.flatMap Row.text)))

def lexemes (f : Written) : List Bare :=
  (.directive, ofString ".func") :: (f.kind, f.name) :: (.int, f.params) :: (.ident, f.returns)
    :: (.endOfLine, [0x0A]) :: f.rows.flatMap Row.lexemes

/-- The parts of the function are lexemes. -/
structure Lexical (f : Written) : Prop where
  kind : f.kind = .ident ∨ f.kind = .int
  name : IsLexeme f.kind f.name
  params : IsLexeme .int f.params
  returns : IsLexeme .ident f.returns
  rows : ∀ r ∈ f.rows, r.Lexical

end Written

/-- A field or variable with its initial value as a listing writes it, without its place. -/
structure WrittenGlobal where
  isField : Bool
  /-- Whether the id is written as a name or as a number. -/
  kind : LexemeKind
  name : Text
  type : Text
  value : Argument

namespace WrittenGlobal

def directive (g : WrittenGlobal) : Text := if g.isField then ofString ".field" else ofString ".var"

def text (g : WrittenGlobal) : Text :=
  g.directive ++ 0x20 :: (g.name ++ 0x20 :: (g.type ++ 0x20 :: (g.value.text ++ [0x0A])))

def lexemes (g : WrittenGlobal) : List Bare :=
  (.directive, g.directive) :: (g.kind, g.name) :: (.ident, g.type)
    :: (g.value.lexemes ++ [(.endOfLine, [0x0A])])

/-- The parts of the declaration are lexemes. -/
structure Lexical (g : WrittenGlobal) : Prop where
  kind : g.kind = .ident ∨ g.kind = .int
  name : IsLexeme g.kind g.name
  type : IsLexeme .ident g.type
  value : g.value.Lexical

end WrittenGlobal

/-- A declaration as a listing writes it. -/
inductive WrittenItem where
  | global (g : WrittenGlobal)
  | function (f : Written)

namespace WrittenItem

def text : WrittenItem → Text
  | global g => g.text
  | function f => f.text

def lexemes : WrittenItem → List Bare
  | global g => g.lexemes
  | function f => f.lexemes

def Lexical : WrittenItem → Prop
  | global g => g.Lexical
  | function f => f.Lexical

/-- The lexemes of declarations with an empty line between neighbours. -/
def allLexemes : List WrittenItem → List Bare
  | [] => []
  | [w] => w.lexemes
  | v :: w :: more => v.lexemes ++ (.endOfLine, [0x0A]) :: allLexemes (w :: more)

/-- A declaration starts with its directive. -/
theorem exists_lexemes (w : WrittenItem) :
    ∃ directive out, w.lexemes = (.directive, directive) :: out := by
  cases w with
  | global g => exact ⟨_, _, rfl⟩
  | function f => exact ⟨_, _, rfl⟩

end WrittenItem

/-- The directive in front of a function. -/
theorem lexemeAt_function (rest : Text) :
    lexemeAt (ofString ".func" ++ 0x20 :: rest) = some (some .directive, ofString ".func") := rfl

/-- The directive in front of a field or a variable. -/
theorem lexemeAt_global (g : WrittenGlobal) (rest : Text) :
    lexemeAt (g.directive ++ 0x20 :: rest) = some (some .directive, g.directive) := by
  rw [WrittenGlobal.directive]
  cases g.isField <;> rfl

section

variable {rest : Text} {out : List Bare} (h : Spells rest out)

include h

/-- A function is its directive line, its rows and the closing line. -/
theorem Spells.function {f : Written} (hf : f.Lexical) :
    Spells (f.text ++ rest) (f.lexemes ++ out) := by
  have hblank (t : Text) : Stops (0x20 :: t) := ⟨0x20, t, rfl, .inl rfl⟩
  have hline : Stops (0x0A :: (f.rows.flatMap Row.text ++ rest)) := ⟨0x0A, _, rfl, .inr (.inl rfl)⟩
  have hreturns := (h.rows hf.rows).endOfLine.nextWord hf.returns hline
  have hparams := hreturns.nextWord hf.params (hblank _)
  have hname := hparams.nextWord hf.name (hblank _)
  have hdirective := Spells.lexeme (by decide) (lexemeAt_function _) hname
  simpa [Written.text, Written.lexemes] using hdirective

/-- A field or variable is one line. -/
theorem Spells.global {g : WrittenGlobal} (hg : g.Lexical) :
    Spells (g.text ++ rest) (g.lexemes ++ out) := by
  have hblank (t : Text) : Stops (0x20 :: t) := ⟨0x20, t, rfl, .inl rfl⟩
  have hline : Stops (0x0A :: rest) := ⟨0x0A, rest, rfl, .inr (.inl rfl)⟩
  have hvalue := h.endOfLine.argument hg.value hline
  have htype := hvalue.nextWord hg.type (hblank _)
  have hname := htype.nextWord hg.name (hblank _)
  have hne : g.directive ≠ [] := by
    rw [WrittenGlobal.directive]
    cases g.isField <;> decide
  have hdirective := Spells.lexeme hne (lexemeAt_global g _) hname
  simpa [WrittenGlobal.text, WrittenGlobal.lexemes] using hdirective

/-- Either of the two. -/
theorem Spells.item {w : WrittenItem} (hw : w.Lexical) :
    Spells (w.text ++ rest) (w.lexemes ++ out) := by
  cases w with
  | global g => exact h.global hw
  | function f => exact h.function hw

end

/-- The text of declarations is cut into their lexemes. -/
theorem spells_items {ws : List WrittenItem} (hws : ∀ w ∈ ws, w.Lexical) :
    Spells (join [0x0A] (ws.map WrittenItem.text)) (WrittenItem.allLexemes ws) := by
  induction ws with
  | nil => exact .nil
  | cons v ws ih =>
      rw [List.forall_mem_cons] at hws
      cases ws with
      | nil =>
          rw [List.map_cons, List.map_nil, join_singleton]
          have hlast := Spells.nil.item hws.1
          rwa [List.append_nil, List.append_nil] at hlast
      | cons w more =>
          rw [List.map_cons, List.map_cons, join_cons_cons, List.append_assoc]
          exact (ih hws.2).endOfLine.item hws.1

/-! ## Whole listings -/

theorem getLast?_rows (t : Text) (rows : List Row) :
    (t ++ 0x0A :: rows.flatMap Row.text).getLast? = some 0x0A := by
  induction rows generalizing t with
  | nil => simp
  | cons r rows ih =>
      obtain ⟨line, hline⟩ : ∃ line, r.text = line ++ [0x0A] := by
        cases r with
        | label name => exact ⟨name ++ [0x3A], by simp [Row.text]⟩
        | instr mnemonic args => exact ⟨_, rfl⟩
      have hlast := ih (t ++ 0x0A :: line)
      simpa [hline] using hlast

/-- Every item ends with a line break. -/
theorem WrittenItem.getLast?_text (w : WrittenItem) : w.text.getLast? = some 0x0A := by
  cases w with
  | global g =>
      have htext : g.text = g.directive ++ 0x20 :: (g.name ++ 0x20 :: (g.type ++ 0x20
          :: g.value.text)) ++ [0x0A] := by simp [WrittenGlobal.text]
      rw [text, htext, List.getLast?_concat]
  | function f =>
      have hlast := getLast?_rows (ofString ".func" ++ 0x20 :: (f.name ++ 0x20 :: (f.params ++ 0x20
        :: f.returns))) f.rows
      simpa [text, Written.text] using hlast

theorem getLast?_items {ws : List WrittenItem} (hne : ws ≠ []) :
    (join [0x0A] (ws.map WrittenItem.text)).getLast? = some 0x0A := by
  induction ws with
  | nil => exact absurd rfl hne
  | cons v ws ih =>
      cases ws with
      | nil =>
          rw [List.map_cons, List.map_nil, join_singleton]
          exact v.getLast?_text
      | cons w more =>
          rw [List.map_cons, List.map_cons, join_cons_cons, List.getLast?_append, ← List.map_cons,
            ih (List.cons_ne_nil w more)]
          rfl

/-- The lexer reads the text of declarations. -/
theorem lexemes_items {ws : List WrittenItem} (hne : ws ≠ []) (hws : ∀ w ∈ ws, w.Lexical) :
    ∃ ls, lexemes (join [0x0A] (ws.map WrittenItem.text)) = .ok ls
      ∧ ls.map Lexeme.bare = WrittenItem.allLexemes ws := by
  rw [lexemes, getLast?_items hne, if_pos BEq.rfl]
  exact (spells_items hws).lexemesFrom _ _ (Nat.le_refl _)

end TickScript.Listing
