import TickScript.Proofs.Project.LoadOrder
import TickScript.Proofs.Table
import TickScript.Proofs.Text.Quoted

/-!
# Lock files are read back

The text of a lock file is a document, and reading the document gives the entries again. A string is
written with every byte that cannot stand for itself behind a backslash (`Written`), so its closing
quote is the first that the reader meets, and each escape is read to its byte. A lock file is then
read one line at a time (`Reads`): a header adds an empty table to those before it, a field adds its
string to the last of them, and no other mark of the draft is ever set.

Only well-formed texts have a place in a document, which is asked of every entry.

The document is read by a reader for documents in general, which keeps a draft of tables and values
and checks at each line that nothing is defined twice. For the lines of a lock file the draft stays
in one shape, an array of tables under one name, so `Reads` fixes this shape and says what one line
adds. That a document is legible at all is checked for the text as a whole; `legible_written` says
that writing a well-formed string keeps its runes whole, since only single bytes are ever escaped.
-/

namespace TickScript

open Text Toml

namespace LockFile

/-! ## Strings -/

/-- The ways to write a byte of a string. -/
inductive Written : UInt8 → Text → Prop
  /-- Most bytes stand for themselves. -/
  | plain {b : UInt8} : 0x20 ≤ b → b ≠ 0x22 → b ≠ 0x5C → b ≠ 0x7F → Written b [b]
  /-- Some are written with a backslash and a letter. -/
  | letter {b letter : UInt8} : b < 0x80 → 0x20 ≤ letter → letter < 0x7F →
    (∀ t, escape? letter t = some ([b], t)) → Written b [0x5C, letter]
  /-- Any ASCII byte may be written by its number. -/
  | number {b : UInt8} : b < 0x80 → Written b (0x5C :: byte 'u' :: 0x30 :: 0x30 :: hexByte b)

theorem written_writeByte (b : UInt8) : Written b (writeByte b) := by
  unfold writeByte
  -- the bytes that have a letter of their own
  by_cases hquote : b = 0x22
  · subst hquote
    exact .letter (by decide) (by decide) (by decide) fun _ => rfl
  by_cases hslash : b = 0x5C
  · subst hslash
    exact .letter (by decide) (by decide) (by decide) fun _ => rfl
  by_cases hback : b = 0x08
  · subst hback
    exact .letter (by decide) (by decide) (by decide) fun _ => rfl
  by_cases htab : b = 0x09
  · subst htab
    exact .letter (by decide) (by decide) (by decide) fun _ => rfl
  by_cases hline : b = 0x0A
  · subst hline
    exact .letter (by decide) (by decide) (by decide) fun _ => rfl
  by_cases hfeed : b = 0x0C
  · subst hfeed
    exact .letter (by decide) (by decide) (by decide) fun _ => rfl
  by_cases hreturn : b = 0x0D
  · subst hreturn
    exact .letter (by decide) (by decide) (by decide) fun _ => rfl
  -- what is left is escaped by its number, or written as it is
  simp only [beq_iff_eq, hquote, hslash, hback, htab, hline, hfeed, hreturn, if_false]
  split
  · next hnumber =>
      refine .number ?_
      rw [Bool.or_eq_true, decide_eq_true_eq, beq_iff_eq] at hnumber
      rcases hnumber with hlow | rfl
      · exact UInt8.lt_trans hlow (by decide)
      · decide
  · next hnumber =>
      rw [Bool.or_eq_true, decide_eq_true_eq, beq_iff_eq, not_or] at hnumber
      exact .plain (UInt8.not_lt.1 hnumber.1) hquote hslash hnumber.2

/-- The digits of a byte are read to the byte. -/
theorem escape?_number {b : UInt8} (hb : b < 0x80) (t : Text) :
    escape? (byte 'u') (0x30 :: 0x30 :: hexByte b ++ t) = some ([b], t) := by
  have hlow : b.toNat < 0x80 := UInt8.lt_iff_toNat_lt.1 hb
  have hdigits : hexDigits? 4 0 (0x30 :: 0x30 :: hexByte b ++ t) = some (b.toNat, t) := by
    show hexDigits? (2 + 2) 0 (zeros 2 ++ (hexByte b ++ t)) = _
    rw [hexDigits?_add, hexDigits?_zeros]
    exact hexDigits?_padZero (by decide) (by omega) t
  have hscalar : isScalar b.toNat = true := (Encodes.one hb).isScalar
  show (do
    let read ← hexDigits? 4 0 (0x30 :: 0x30 :: hexByte b ++ t)
    guard (isScalar read.1)
    return (ofPoint read.1, read.2)) = some ([b], t)
  simp only [hdigits, hscalar, (Encodes.one hb).ofPoint, Option.bind_eq_bind, Option.bind_some,
    guard_true, pure]

/-- A written byte is read to the byte. -/
theorem Written.basicString {b : UInt8} {written : Text} (h : Written b written) (fuel : Nat)
    (rest : Text) : Toml.basicString (fuel + 1) (written ++ rest)
      = (Toml.basicString fuel rest).map fun read => (b :: read.1, read.2) := by
  have hescaped {letter : UInt8} {t : Text} (hletter : escape? letter t = some ([b], rest)) :
      Toml.basicString (fuel + 1) (0x5C :: letter :: t)
        = (Toml.basicString fuel rest).map fun read => (b :: read.1, read.2) := by
    show (do
      let read ← escape? letter t
      let more ← Toml.basicString fuel read.2
      return (read.1 ++ more.1, more.2)) = _
    simp only [hletter, Option.bind_eq_bind, Option.bind_some]
    cases Toml.basicString fuel rest <;> rfl
  cases h with
  | plain hlow hquote hslash _ =>
      have hend : isLineEnd b = false := by
        have hne {c : UInt8} (hc : c < 0x20) : b ≠ c := fun heq =>
          UInt8.not_le.2 hc (heq ▸ hlow)
        simp [isLineEnd, hne (show (0x0A : UInt8) < 0x20 by decide),
          hne (show (0x0D : UInt8) < 0x20 by decide)]
      simp only [List.cons_append, List.nil_append, Toml.basicString, beq_iff_eq, hquote, hslash, hend,
        if_false, Bool.false_eq_true]
      cases Toml.basicString fuel rest <;> rfl
  | letter _ _ _ hletter => exact hescaped (hletter rest)
  | number hb => exact hescaped (escape?_number hb rest)

/-- A written string is read up to its closing quote. -/
theorem basicString_written (value rest : Text) : ∀ fuel, value.length < fuel →
    Toml.basicString fuel (value.flatMap writeByte ++ 0x22 :: rest) = some (value, rest) := by
  induction value with
  | nil =>
      intro fuel hfuel
      cases fuel with
      | zero => cases hfuel
      | succ fuel => rfl
  | cons b value ih =>
      intro fuel hfuel
      cases fuel with
      | zero => cases hfuel
      | succ fuel =>
          rw [List.flatMap_cons, List.append_assoc, (written_writeByte b).basicString,
            ih fuel (Nat.lt_of_succ_lt_succ hfuel)]
          rfl

/-- A written byte begins with a byte that is no quote. -/
theorem Written.exists_cons {b : UInt8} {written : Text} (h : Written b written) :
    ∃ first more, written = first :: more ∧ first ≠ 0x22 := by
  cases h with
  | plain _ hquote _ _ => exact ⟨_, _, rfl, hquote⟩
  | letter _ _ _ _ => exact ⟨_, _, rfl, by decide⟩
  | number _ => exact ⟨_, _, rfl, by decide⟩

/-- A byte is written as one unit at least. -/
theorem length_le_written (value : Text) : value.length ≤ (value.flatMap writeByte).length := by
  induction value with
  | nil => exact Nat.le_refl 0
  | cons b value ih =>
      obtain ⟨first, more, hwritten, -⟩ := (written_writeByte b).exists_cons
      rw [List.flatMap_cons, List.length_append, hwritten, List.length_cons, List.length_cons]
      omega

/-- A string in quotes is a value. In front of a line end an empty string is not taken for the start
of a string of several lines. -/
theorem scalar_written (value rest : Text) :
    scalar (0x22 :: (value.flatMap writeByte ++ 0x22 :: 0x0A :: rest))
      = some (.text value, 0x0A :: rest) := by
  have hstring : basicString (value.flatMap writeByte ++ 0x22 :: 0x0A :: rest).length
      (value.flatMap writeByte ++ 0x22 :: 0x0A :: rest) = some (value, 0x0A :: rest) := by
    apply basicString_written
    have hlength := length_le_written value
    rw [List.length_append, List.length_cons]
    omega
  cases value with
  | nil => rfl
  | cons b value =>
      obtain ⟨first, more, hwritten, hfirst⟩ := (written_writeByte b).exists_cons
      rw [List.flatMap_cons, hwritten, List.cons_append, List.cons_append] at hstring ⊢
      have hdigit : isDigit 0x22 = false := by decide
      simp only [scalar, hdigit, hstring, beq_self_eq_true, if_true, Bool.false_eq_true, if_false]
      split
      · next heq => exact absurd (List.cons.inj heq).1 hfirst
      · rfl

/-! ## Blanks, keys and line ends -/

/-- Whether a byte begins something other than blanks and comments. -/
def Starts (b : UInt8) : Prop := (isSpace b || isLineEnd b) = false ∧ b ≠ 0x23

/-- What stands in front of a statement is skipped up to its first byte. -/
def Skips (before : Text) : Prop :=
  ∀ b t, Starts b → ∀ fuel, before.length < fuel → skipLines fuel (before ++ b :: t) = b :: t

/-- Blanks and line ends are skipped in front of a statement. -/
theorem skips_blanks {blanks : Text} (h : ∀ b ∈ blanks, (isSpace b || isLineEnd b) = true) :
    Skips blanks := by
  intro b t hb fuel hfuel
  obtain ⟨fuel, rfl⟩ : ∃ n, fuel = n + 1 := Nat.exists_eq_add_one.2 (Nat.zero_lt_of_lt hfuel)
  rw [skipLines, List.dropWhile_append_of_pos h, List.dropWhile_cons_of_neg (by simp [hb.1])]
  split
  · next heq => exact absurd (List.cons.inj heq).1 hb.2
  · rfl

/-- A comment is skipped with the blank lines behind it. -/
theorem skips_comment {line blanks : Text} (hline : ∀ b ∈ line, (b != 0x0A) = true)
    (hblanks : ∀ b ∈ blanks, (isSpace b || isLineEnd b) = true) :
    Skips (0x23 :: line ++ 0x0A :: blanks) := by
  intro b t hb fuel hfuel
  obtain ⟨fuel, rfl⟩ : ∃ n, fuel = n + 1 := Nat.exists_eq_add_one.2 (Nat.zero_lt_of_lt hfuel)
  have hrest : (line ++ 0x0A :: (blanks ++ b :: t)).dropWhile (· != 0x0A)
      = 0x0A :: blanks ++ b :: t := by
    rw [List.dropWhile_append_of_pos hline]
    rfl
  have hblanks' : ∀ c ∈ 0x0A :: blanks, (isSpace c || isLineEnd c) = true :=
    List.forall_mem_cons.2 ⟨by decide, hblanks⟩
  show skipLines fuel ((line ++ 0x0A :: blanks ++ b :: t).dropWhile (· != 0x0A)) = b :: t
  rw [List.append_assoc, List.cons_append, hrest]
  apply skips_blanks hblanks' b t hb
  simp only [List.cons_append, List.length_cons, List.length_append] at hfuel ⊢
  omega

/-- A name of a field stands for itself as a key. -/
structure IsKey (key : Text) : Prop where
  ne_nil : key ≠ []
  lower : ∀ b ∈ key, isLower b = true

theorem ne_of_isLower {b c : UInt8} (hb : isLower b = true) (hc : isLower c = false) : b ≠ c := by
  rintro rfl
  rw [hb] at hc
  cases hc

/-- A statement begins with a lower case letter here. -/
theorem starts_of_isLower {b : UInt8} (hb : isLower b = true) : Starts b := by
  have hne {c : UInt8} (hc : isLower c = false) : b ≠ c := ne_of_isLower hb hc
  refine ⟨?_, hne (by decide)⟩
  simp [isSpace, isLineEnd, hne (c := 0x20) (by decide), hne (c := 0x09) (by decide),
    hne (c := 0x0A) (by decide), hne (c := 0x0D) (by decide)]

/-- A key is read up to the first byte that no key has. -/
theorem dottedKey_key {key rest : Text} (hkey : IsKey key)
    (hstop : ∀ b ∈ rest.head?, isKeyByte b = false)
    (hpoint : ∀ b ∈ (skipSpaces rest).head?, b ≠ 0x2E) (fuel : Nat) :
    dottedKey (fuel + 1) (key ++ rest) = some ([key], skipSpaces rest) := by
  have hbytes : ∀ b ∈ key, isKeyByte b = true := fun b hb => by
    simp [isKeyByte, isWord, isLetter, hkey.lower b hb]
  have htake : (key ++ rest).takeWhile isKeyByte = key := takeWhile_append_stop hbytes hstop
  obtain ⟨b, more, rfl⟩ := List.exists_cons_of_ne_nil hkey.ne_nil
  have hb : isLower b = true := hkey.lower b List.mem_cons_self
  have hblank : isSpace b = false := (Bool.or_eq_false_iff.1 (starts_of_isLower hb).1).1
  have hspaces : skipSpaces (b :: more ++ rest) = b :: more ++ rest :=
    List.dropWhile_cons_of_neg (by simp [hblank])
  have hpart : keyPart (b :: more ++ rest) = some (b :: more, rest) := by
    rw [List.cons_append] at htake ⊢
    simp only [keyPart, htake, beq_iff_eq, ne_of_isLower hb (show isLower 0x22 = false by decide),
      ne_of_isLower hb (show isLower 0x27 = false by decide), if_false, List.isEmpty_cons,
      Bool.false_eq_true]
    rw [← List.cons_append, List.drop_left]
  unfold dottedKey
  simp only [hspaces, hpart, Option.bind_eq_bind, Option.bind_some]
  split
  · next heq =>
      rw [heq] at hpoint
      exact absurd rfl (hpoint 0x2E rfl)
  · rfl

theorem statementEnd_line (rest : Text) : statementEnd (0x0A :: rest) = some rest := rfl

/-! ## Statements -/

/-- The header of an element of an array of tables opens the table for the statements behind it. -/
theorem statements_element {fuel : Nat} {context path : List Text} {d d' : Draft}
    {t rest after behind : Text} (hskip : skipLines t.length t = 0x5B :: 0x5B :: rest)
    (hkey : dottedKey rest.length rest = some (path, 0x5D :: 0x5D :: after))
    (hopen : d.openElement path = some d') (hend : statementEnd after = some behind) :
    statements (fuel + 1) context d t = statements fuel path (d'.note path [] false) behind := by
  rw [statements, hskip]
  simp only [hkey, hopen, hend, dropHead?, beq_self_eq_true, if_true, Option.bind_eq_bind,
    Option.bind_some]

/-- A key with a value is given to the table that is open. -/
theorem statements_assigned {fuel : Nat} {context : List Text} {key : Text} {d d' : Draft} {v : Toml}
    {t rest after last behind : Text} {b : UInt8} (hskip : skipLines t.length t = b :: rest)
    (hb : b ≠ 0x5B) (hkey : dottedKey (b :: rest).length (b :: rest) = some ([key], 0x3D :: after))
    (hgiven : assigned (2 * after.length + 2) d context [] key after = some (d', v, last))
    (hend : statementEnd last = some behind) :
    statements (fuel + 1) context d t = statements fuel context d' behind := by
  rw [statements, hskip]
  split
  · next heq => cases heq
  · next heq => exact absurd (List.cons.inj heq).1 hb
  · next heq => exact absurd (List.cons.inj heq).1 hb
  · simp only [hkey, hend, dropHead?, beq_self_eq_true, if_true, Option.bind_eq_bind,
      Option.bind_some, List.getLast?_singleton, List.dropLast_singleton, hgiven]

/-- With a text in front of them the statements of a document make one draft from another. -/
def Reads (context : List Text) (d : Draft) (t : Text) (d' : Draft) : Prop :=
  ∀ fuel, t.length < fuel → statements fuel context d t = some d'

/-- No statements leave the draft as it is. -/
theorem reads_nil (context : List Text) (d : Draft) : Reads context d [] d := by
  intro fuel hfuel
  cases fuel with
  | zero => cases hfuel
  | succ fuel => rfl

/-! ## Tables of a lock file -/

/-- A document with tables for some entries. -/
def drafted : List Entries → Draft
  | [] => {}
  | elements => { entries := [("dep", .tables elements)] }

theorem drafted_snoc (elements : List Entries) (entries : Entries) :
    drafted (elements ++ [entries]) = { entries := [("dep", .tables (elements ++ [entries]))] } := by
  cases elements <;> rfl

/-- The header opens one more element of the array. -/
theorem openElement_drafted (elements : List Entries) :
    ((drafted elements).openElement ["dep"]).map (·.note ["dep"] [] false)
      = some (drafted (elements ++ [[]])) := by
  rw [drafted_snoc]
  cases elements <;>
    simp [drafted, Draft.openElement, Draft.establish, Draft.get?, Draft.set, Draft.note, setAt,
      entriesAt?, Table.get?, Table.set]

/-- A field goes into the element that was opened last, unless it is there already. -/
theorem finish_drafted (elements : List Entries) {entries : Entries} {key : Text}
    (h : Table.get? entries key = none) (value : Text) :
    (drafted (elements ++ [entries])).finish ["dep"] key (.text value)
      = some (drafted (elements ++ [entries ++ [(key, .text value)]])) := by
  have hhas : Table.has entries key = false := (Table.has_eq_false_iff entries key).2 h
  rw [drafted_snoc, drafted_snoc]
  simp [Draft.finish, Draft.give, Draft.set, Draft.note, setAt, entriesAt?, Table.get?, Table.set, inner?,
    withInner, isList, hhas, Table.set_of_get?_eq_none h]

/-- The header as the reader takes it apart. -/
theorem header_eq : Text.ofString "[[dep]]\n"
    = 0x5B :: 0x5B :: (Text.ofString "dep" ++ 0x5D :: 0x5D :: [0x0A]) := by decide

/-- A line of an entry as the reader takes it apart. -/
theorem writeField_eq (name : String) (value : Text) : writeField name value
    = [0x20, 0x20] ++ (Text.ofString name
      ++ 0x20 :: 0x3D :: 0x20 :: 0x22 :: (value.flatMap writeByte ++ [0x22, 0x0A])) := by
  have hindent : Text.ofString "  " = [0x20, 0x20] := by decide
  have hopening : Text.ofString " = \"" = [0x20, 0x3D, 0x20, 0x22] := by decide
  have hclosing : Text.ofString "\"\n" = [0x22, 0x0A] := by decide
  simp only [writeField, hindent, hopening, hclosing, List.append_assoc, List.cons_append,
    List.nil_append]

/-- A header adds an empty table. -/
theorem Reads.header {before rest : Text} {context : List Text} {elements : List Entries} {d' : Draft}
    (hbefore : Skips before)
    (h : Reads [Text.ofString "dep"] (drafted (elements ++ [[]])) rest d') :
    Reads context (drafted elements) (before ++ (Text.ofString "[[dep]]\n" ++ rest)) d' := by
  intro fuel hfuel
  obtain ⟨fuel, rfl⟩ : ∃ n, fuel = n + 1 := Nat.exists_eq_add_one.2 (Nat.zero_lt_of_lt hfuel)
  obtain ⟨d, hopen, hnote⟩ := Option.map_eq_some_iff.1 (openElement_drafted elements)
  have hdep : IsKey (Text.ofString "dep") := ⟨by decide, by decide⟩
  rw [header_eq] at hfuel ⊢
  simp only [List.cons_append, List.append_assoc, List.nil_append, List.length_append,
    List.length_cons] at hfuel ⊢
  -- what stands before the header is skipped up to its brackets
  have hskip : ∀ fuel, before.length < fuel →
      skipLines fuel (before ++ 0x5B :: 0x5B :: (Text.ofString "dep" ++ 0x5D :: 0x5D :: 0x0A :: rest))
        = 0x5B :: 0x5B :: (Text.ofString "dep" ++ 0x5D :: 0x5D :: 0x0A :: rest) :=
    hbefore 0x5B _ ⟨by decide, by decide⟩
  -- between the brackets is the one key
  have hkey : ∀ fuel, 0 < fuel →
      dottedKey fuel (Text.ofString "dep" ++ 0x5D :: 0x5D :: 0x0A :: rest)
        = some ([Text.ofString "dep"], 0x5D :: 0x5D :: 0x0A :: rest) := by
    intro fuel hfuel
    obtain ⟨fuel, rfl⟩ : ∃ n, fuel = n + 1 := Nat.exists_eq_add_one.2 hfuel
    exact dottedKey_key hdep (by rintro b ⟨⟩; decide) (by rintro b ⟨⟩; decide) fuel
  have hlength : before.length
      < (before ++ 0x5B :: 0x5B :: (Text.ofString "dep" ++ 0x5D :: 0x5D :: 0x0A :: rest)).length := by
    rw [List.length_append, List.length_cons]
    omega
  have hpos : 0 < (Text.ofString "dep" ++ 0x5D :: 0x5D :: 0x0A :: rest).length := by
    rw [List.length_append, List.length_cons]
    omega
  rw [statements_element (hskip _ hlength) (hkey _ hpos) hopen (statementEnd_line rest), hnote]
  apply h
  omega

/-- A string is given to the last of the tables. -/
theorem assigned_drafted (elements : List Entries) {entries : Entries} {key : Text}
    (hnew : Table.get? entries key = none) (value rest : Text) (fuel : Nat) :
    assigned (fuel + 2) (drafted (elements ++ [entries])) [Text.ofString "dep"] [] key
        (0x20 :: 0x22 :: (value.flatMap writeByte ++ 0x22 :: 0x0A :: rest))
      = some (drafted (elements ++ [entries ++ [(key, .text value)]]), .text value, 0x0A :: rest) := by
  have hread (d : Draft) : Toml.value (fuel + 1) d ([Text.ofString "dep"] ++ []) key false
      (0x20 :: 0x22 :: (value.flatMap writeByte ++ 0x22 :: 0x0A :: rest))
      = some (d, .text value, 0x0A :: rest) := by
    have hspaces : skipSpaces (0x20 :: 0x22 :: (value.flatMap writeByte ++ 0x22 :: 0x0A :: rest))
        = 0x22 :: (value.flatMap writeByte ++ 0x22 :: 0x0A :: rest) := rfl
    rw [Toml.value, hspaces]
    show (scalar (0x22 :: (value.flatMap writeByte ++ 0x22 :: 0x0A :: rest))).map _ = _
    rw [scalar_written, Option.map_some]
  have hfinish : Draft.finish _ ([Text.ofString "dep"] ++ []) key (.text value) = some _ :=
    finish_drafted elements hnew value
  simp only [assigned, Draft.openSteps, hread, hfinish, Option.bind_eq_bind, Option.bind_some, pure]

/-- A field adds its value to the last of the tables. -/
theorem Reads.field {name : String} {value rest : Text} {elements : List Entries} {entries : Entries}
    {d' : Draft} (hname : IsKey name) (hnew : Table.get? entries (Text.ofString name) = none)
    (h : Reads [Text.ofString "dep"]
      (drafted (elements ++ [entries ++ [(Text.ofString name, .text value)]])) rest d') :
    Reads [Text.ofString "dep"] (drafted (elements ++ [entries])) (writeField name value ++ rest) d' := by
  intro fuel hfuel
  obtain ⟨fuel, rfl⟩ : ∃ n, fuel = n + 1 := Nat.exists_eq_add_one.2 (Nat.zero_lt_of_lt hfuel)
  rw [writeField_eq] at hfuel ⊢
  simp only [List.append_assoc, List.cons_append, List.nil_append] at hfuel ⊢
  have hgiven := assigned_drafted elements hnew value rest
  generalize Text.ofString name = key at *
  generalize hquoted : 0x22 :: (value.flatMap writeByte ++ 0x22 :: 0x0A :: rest) = quoted at *
  -- a key has a first letter, where the blanks in front of it end
  obtain ⟨b, more, rfl⟩ := List.exists_cons_of_ne_nil hname.ne_nil
  have hb : isLower b = true := hname.lower b List.mem_cons_self
  have hkey : dottedKey (b :: (more ++ 0x20 :: 0x3D :: 0x20 :: quoted)).length
      (b :: (more ++ 0x20 :: 0x3D :: 0x20 :: quoted)) = some ([b :: more], 0x3D :: 0x20 :: quoted) :=
    dottedKey_key hname (by rintro b ⟨⟩; decide) (by rintro b ⟨⟩; decide) _
  have hskip : ∀ fuel, 2 < fuel →
      skipLines fuel (0x20 :: 0x20 :: b :: (more ++ 0x20 :: 0x3D :: 0x20 :: quoted))
        = b :: (more ++ 0x20 :: 0x3D :: 0x20 :: quoted) := by
    have hblanks : ∀ c ∈ [0x20, 0x20], (isSpace c || isLineEnd c) = true := by decide
    exact skips_blanks hblanks b _ (starts_of_isLower hb)
  have hlength : 2 < (0x20 :: 0x20 :: b :: (more ++ 0x20 :: 0x3D :: 0x20 :: quoted)).length := by
    simp only [List.length_cons]
    omega
  -- so this is no header
  have hbracket : b ≠ 0x5B := ne_of_isLower hb (by decide)
  rw [List.cons_append, statements_assigned (hskip _ hlength) hbracket hkey
    (hgiven (2 * (0x20 :: quoted).length)) (statementEnd_line rest)]
  apply h
  simp only [← hquoted, List.length_append, List.length_cons] at hfuel
  omega

/-! ## Entries -/

/-- The names of the fields. -/
def fieldNames : List Text := ["name", "git", "tag", "commit", "path"]

/-- The names of the fields are bare keys. -/
theorem isKey_of_mem {name : Text} (h : name ∈ fieldNames) : IsKey name := by
  have hkeys : ∀ name ∈ fieldNames, name ≠ [] ∧ ∀ b ∈ name, isLower b = true := by decide
  exact ⟨(hkeys name h).1, (hkeys name h).2⟩

/-- Ignoring case the names of the fields stay apart. -/
theorem equalFold_fieldNames : ∀ a ∈ fieldNames, ∀ b ∈ fieldNames, equalFold a b = (b == a) := by
  decide +kernel

/-- The fields of an entry that are written unless they are empty. -/
def optionals (entry : LockedDependency) : List (String × Text) :=
  [("git", entry.git), ("tag", entry.tag), ("commit", entry.commit), ("path", entry.path)]

/-- The names of some fields. -/
def names (fields : List (String × Text)) : List Text := fields.map fun field => Text.ofString field.1

theorem mem_names {fields : List (String × Text)} {field : String × Text} (h : field ∈ fields) :
    Text.ofString field.1 ∈ names fields := List.mem_map.2 ⟨field, h, rfl⟩

/-- A field in its table, unless it is empty. -/
def optional (field : String × Text) : Entries :=
  if field.2.isEmpty then [] else [(Text.ofString field.1, .text field.2)]

/-- The table of an entry. -/
def tableOf (entry : LockedDependency) : Entries :=
  (Text.ofString "name", .text entry.name) :: (optionals entry).flatMap optional

/-- An entry is a header, its name and the fields that it has. -/
theorem writeEntry_eq (entry : LockedDependency) : writeEntry entry = Text.ofString "[[dep]]\n"
    ++ (writeField "name" entry.name
      ++ (optionals entry).flatMap fun field => writeOptional field.1 field.2) := by
  simp only [writeEntry, optionals, List.flatMap_cons, List.flatMap_nil, List.append_assoc,
    List.append_nil]

/-- A field that is empty is left out. -/
theorem keys_optional (field : String × Text) :
    (Table.keys (optional field)).Sublist [Text.ofString field.1] := by
  unfold optional
  split
  · exact List.nil_sublist _
  · exact List.Sublist.refl _

/-- Fields with names of their own are added one after the other, except for the empty ones. -/
theorem Reads.fields {rest : Text} {elements : List Entries} {d' : Draft}
    (fields : List (String × Text)) (hfields : ∀ field ∈ fields, IsKey (Text.ofString field.1)) :
    ∀ entries : Entries,
      (Table.keys entries ++ names fields).Nodup →
      Reads [Text.ofString "dep"] (drafted (elements ++ [entries ++ fields.flatMap optional])) rest d' →
      Reads [Text.ofString "dep"] (drafted (elements ++ [entries]))
        ((fields.flatMap fun field => writeOptional field.1 field.2) ++ rest) d' := by
  induction fields with
  | nil =>
      intro entries _ h
      rwa [List.flatMap_nil, List.append_nil] at h
  | cons field fields ih =>
      intro entries hnodup h
      have hmore := ih (fun field hfield => hfields field (List.mem_cons_of_mem _ hfield))
      rw [names, List.map_cons] at hnodup
      rw [List.flatMap_cons, ← List.append_assoc] at h
      rw [List.flatMap_cons, List.append_assoc]
      -- names of fields are different, so this one is not there yet
      have hnew : Table.get? entries (Text.ofString field.1) = none := by
        refine Option.eq_none_iff_forall_not_mem.2 fun value hget => ?_
        have hdisjoint := (List.nodup_append'.1 hnodup).2.2
        exact hdisjoint (Table.mem_keys_of_get? hget) List.mem_cons_self
      have hnodup' : (Table.keys (entries ++ optional field) ++ names fields).Nodup := by
        refine hnodup.sublist ?_
        rw [Table.keys, List.map_append, List.append_assoc]
        exact (List.Sublist.refl _).append ((keys_optional field).append (List.Sublist.refl _))
      have hread := hmore _ hnodup' h
      -- an empty field is left out on both sides
      unfold writeOptional
      split
      · next hempty => rwa [optional, if_pos hempty, List.append_nil] at hread
      · next hvalue =>
          rw [optional, if_neg hvalue] at hread
          exact hread.field (hfields field List.mem_cons_self) hnew

/-- An entry adds its table to those before it. -/
theorem Reads.entry {before rest : Text} {context : List Text} {elements : List Entries}
    {entry : LockedDependency} {d' : Draft} (hbefore : Skips before)
    (h : Reads [Text.ofString "dep"] (drafted (elements ++ [tableOf entry])) rest d') :
    Reads context (drafted elements) (before ++ (writeEntry entry ++ rest)) d' := by
  have hkeys : ∀ field ∈ optionals entry, IsKey (Text.ofString field.1) := by
    intro field hfield
    exact isKey_of_mem (List.mem_cons_of_mem _ (mem_names hfield))
  have hnodup : fieldNames.Nodup := by decide
  rw [writeEntry_eq, List.append_assoc, List.append_assoc]
  apply Reads.header hbefore
  apply Reads.field (isKey_of_mem List.mem_cons_self) rfl
  exact Reads.fields (optionals entry) hkeys _ hnodup h

/-- The entries of a lock file add their tables. -/
theorem reads_entries (lock : LockFile) : ∀ (before : Text) (context : List Text)
    (elements : List Entries) (entry : LockedDependency), Skips before →
    Reads context (drafted elements) (before ++ Text.join "\n" ((entry :: lock).map writeEntry))
      (drafted (elements ++ (entry :: lock).map tableOf)) := by
  have hline : Skips (Text.ofString "\n") := skips_blanks (by decide)
  induction lock with
  | nil =>
      intro before context elements entry hbefore
      have hend := reads_nil [Text.ofString "dep"] (drafted (elements ++ [tableOf entry]))
      have hread : Reads context (drafted elements) (before ++ (writeEntry entry ++ []))
          (drafted (elements ++ [tableOf entry])) := hend.entry hbefore
      simpa [Text.join] using hread
  | cons next lock ih =>
      intro before context elements entry hbefore
      have hmore := ih (Text.ofString "\n") [Text.ofString "dep"] (elements ++ [tableOf entry]) next hline
      rw [List.append_assoc] at hmore
      exact hmore.entry hbefore

theorem comment_eq : Text.ofString "# Generated by barc. Do not edit.\n\n"
    = 0x23 :: Text.ofString " Generated by barc. Do not edit." ++ 0x0A :: [0x0A] := by decide

/-- The whole lock file, by induction on its entries. -/
theorem reads_render (lock : LockFile) :
    Reads [] {} (render lock) (drafted (lock.map tableOf)) := by
  have hcomment : Skips (Text.ofString "# Generated by barc. Do not edit.\n\n") := by
    rw [comment_eq]
    exact skips_comment (by decide) (by decide)
  cases lock with
  | nil =>
      intro fuel hfuel
      obtain ⟨fuel, rfl⟩ : ∃ n, fuel = n + 1 := Nat.exists_eq_add_one.2 (Nat.zero_lt_of_lt hfuel)
      have hskip : skipLines (render []).length (render []) = [] := by decide
      rw [statements, hskip]
      rfl
  | cons entry lock => exact reads_entries lock _ [] [] entry hcomment

/-! ## Tables as entries -/

/-- Among the names of the fields a field is looked up by its own name. -/
theorem fieldValues_eq {entries : Entries} {name : Text} (hname : name ∈ fieldNames)
    (hkeys : ∀ key ∈ Table.keys entries, key ∈ fieldNames) :
    fieldValues entries name = (entries.filter fun field => field.1 == name).map (·.2) := by
  have hfold : entries.filter (fun field => equalFold name field.1)
      = entries.filter fun field => field.1 == name := by
    refine List.filter_congr fun field hfield => ?_
    exact equalFold_fieldNames name hname field.1 (hkeys field.1 (List.mem_map_of_mem hfield))
  simp [fieldValues, hfold, List.filter_filter]

/-- Looking for one key among the fields finds the field of that name. -/
theorem filter_optional (field : String × Text) (name : Text) :
    (optional field).filter (fun entry => entry.1 == name)
      = if Text.ofString field.1 = name then optional field else [] := by
  unfold optional
  by_cases hname : Text.ofString field.1 = name <;> by_cases hvalue : field.2.isEmpty = true <;>
    simp [hname, hvalue]

theorem filter_optionals_of_notMem {fields : List (String × Text)} {name : Text}
    (h : name ∉ names fields) :
    (fields.flatMap optional).filter (fun entry => entry.1 == name) = [] := by
  rw [List.filter_flatMap, List.flatMap_eq_nil_iff]
  intro field hfield
  rw [filter_optional, if_neg]
  rintro rfl
  exact h (mem_names hfield)

/-- Of fields with names of their own each is found by its name. -/
theorem filter_optionals {fields : List (String × Text)} {field : String × Text}
    (hnodup : (names fields).Nodup) (h : field ∈ fields) :
    (fields.flatMap optional).filter (fun entry => entry.1 == Text.ofString field.1)
      = optional field := by
  induction fields with
  | nil => cases h
  | cons first fields ih =>
      rw [names, List.map_cons, List.nodup_cons] at hnodup
      rw [List.flatMap_cons, List.filter_append, filter_optional]
      rcases List.mem_cons.1 h with rfl | h
      · rw [if_pos rfl, filter_optionals_of_notMem hnodup.1, List.append_nil]
      · have hne : Text.ofString first.1 ≠ Text.ofString field.1 := fun heq =>
          hnodup.1 (heq ▸ mem_names h)
        rw [if_neg hne, List.nil_append]
        exact ih hnodup.2 h

/-- An empty field is read as the default. -/
theorem read_optional (field : String × Text) :
    (((optional field).map (·.2)).mapM asText).map (·.headD []) = some field.2 := by
  unfold optional
  split
  · next hempty => simp [List.isEmpty_iff.1 hempty]
  · rfl

/-- An entry has no other keys. -/
theorem keys_tableOf (entry : LockedDependency) :
    ∀ key ∈ Table.keys (tableOf entry), key ∈ fieldNames := by
  intro key hkey
  rcases List.mem_cons.1 hkey with rfl | hkey
  · exact List.mem_cons_self
  · obtain ⟨found, hfound, rfl⟩ := List.mem_map.1 hkey
    obtain ⟨field, hfield, hfound⟩ := List.mem_flatMap.1 hfound
    have hname := (keys_optional field).subset (List.mem_map_of_mem hfound)
    rw [List.mem_singleton.1 hname]
    exact List.mem_cons_of_mem _ (mem_names hfield)

/-- The table of an entry is read as the entry. -/
theorem entryOf?_tableOf (entry : LockedDependency) : entryOf? (tableOf entry) = some entry := by
  have hnodup : (Text.ofString "name" :: names (optionals entry)).Nodup := by
    show fieldNames.Nodup
    decide
  obtain ⟨hname, hnodup⟩ := List.nodup_cons.1 hnodup
  have hread {field : String × Text} (hfield : field ∈ optionals entry) :
      textField (tableOf entry) field.1 = some field.2 := by
    have hmem := mem_names hfield
    have hne : Text.ofString "name" ≠ Text.ofString field.1 := fun heq => hname (heq ▸ hmem)
    have hfilter : (tableOf entry).filter (fun other => other.1 == Text.ofString field.1)
        = optional field := by
      rw [tableOf, List.filter_cons_of_neg (by simpa using hne), filter_optionals hnodup hfield]
    rw [textField, typedField, fieldValues_eq (List.mem_cons_of_mem _ hmem) (keys_tableOf entry),
      hfilter]
    exact read_optional field
  have hnamed : textField (tableOf entry) "name" = some entry.name := by
    have hfilter : (tableOf entry).filter (fun other => other.1 == Text.ofString "name")
        = [(Text.ofString "name", .text entry.name)] := by
      rw [tableOf, List.filter_cons_of_pos (by simp), filter_optionals_of_notMem hname]
    rw [textField, typedField, fieldValues_eq List.mem_cons_self (keys_tableOf entry), hfilter]
    rfl
  have hgit := @hread ("git", entry.git) (by simp [optionals])
  have htag := @hread ("tag", entry.tag) (by simp [optionals])
  have hcommit := @hread ("commit", entry.commit) (by simp [optionals])
  have hpath := @hread ("path", entry.path) (by simp [optionals])
  rw [entryOf?, hnamed, hgit, htag, hcommit, hpath]
  rfl

/-- The document of a lock file holds its entries. -/
theorem ofDocument?_drafted (lock : LockFile) :
    ofDocument? (drafted (lock.map tableOf)).entries = some lock := by
  have hentries : (lock.map tableOf).mapM entryOf? = some lock := by
    induction lock with
    | nil => rfl
    | cons entry lock ih => simp [entryOf?_tableOf, ih]
  have hfold : equalFold "dep" "dep" = true := by decide +kernel
  cases lock with
  | nil => rfl
  | cons entry lock =>
      have hvalues : fieldValues (drafted ((entry :: lock).map tableOf)).entries "dep"
          = [.tables ((entry :: lock).map tableOf)] := by
        simp [drafted, fieldValues, hfold]
      rw [ofDocument?, tablesField, typedField, hvalues]
      simp only [List.mapM_cons, List.mapM_nil, asTables, hentries, Option.bind_eq_bind,
        Option.bind_some, Option.map_some, pure, List.headD_cons]

/-! ## What stands in a document -/

/-- A text that may stand in a document. -/
structure Legible (t : Text) : Prop where
  utf8 : t.isUtf8 = true
  visible : ∀ b ∈ t, (0x20 ≤ b ∧ b ≠ 0x7F) ∨ b = 0x0A

theorem Legible.isPrintable {t : Text} (h : Legible t) : Toml.isPrintable t = true := by
  obtain ⟨-, hvisible⟩ := h
  induction t with
  | nil => rfl
  | cons b t ih =>
      have ht := ih fun c hc => hvisible c (List.mem_cons_of_mem b hc)
      rw [Toml.isPrintable, ht, Bool.and_true]
      rcases hvisible b List.mem_cons_self with ⟨hlow, hdelete⟩ | rfl
      · simp [hlow, hdelete]
      · rfl

/-- Legible texts stay legible one behind the other. -/
theorem Legible.append {t t' : Text} (h : Legible t) (h' : Legible t') : Legible (t ++ t') :=
  ⟨(isUtf8_append h.utf8 t').trans h'.utf8,
    fun b hb => (List.mem_append.1 hb).elim (h.visible b) (h'.visible b)⟩

theorem legible_nil : Legible [] := ⟨isUtf8_nil, nofun⟩

/-- Printable ASCII and line breaks are legible. -/
theorem legible_of_ascii {t : Text} (h : ∀ b ∈ t, (0x20 ≤ b ∧ b < 0x7F) ∨ b = 0x0A) : Legible t := by
  refine ⟨isUtf8_of_ascii fun b hb => ?_, fun b hb => ?_⟩
  · rcases h b hb with ⟨-, hhigh⟩ | rfl
    · exact UInt8.lt_trans hhigh (by decide)
    · decide
  · refine (h b hb).imp_left fun hrange => ⟨hrange.1, ?_⟩
    rintro rfl
    exact absurd hrange.2 (by decide)

/-- A written ASCII byte is legible. -/
theorem Written.legible {b : UInt8} {written : Text} (h : Written b written) (hb : b < 0x80) :
    Legible written := by
  cases h with
  | plain hlow _ _ hdelete =>
      exact ⟨isUtf8_of_ascii (by simpa using hb), by simpa using .inl ⟨hlow, hdelete⟩⟩
  | letter _ hlow hhigh _ =>
      apply legible_of_ascii
      intro c hc
      rcases List.mem_pair.1 hc with rfl | rfl
      · exact .inl (by decide)
      · exact .inl ⟨hlow, hhigh⟩
  | number _ =>
      have hdigits : ∀ c ∈ hexByte b, 0x20 ≤ c ∧ c < 0x7F :=
        forall_mem_padZero_hex (by decide) 2 b.toNat
      have hletters : Legible [0x5C, byte 'u', 0x30, 0x30] := legible_of_ascii (by decide)
      exact hletters.append (legible_of_ascii fun c hc => .inl (hdigits c hc))

/-- Beyond the ASCII bytes nothing is escaped. -/
theorem writeByte_of_high {b : UInt8} (hb : 0x80 ≤ b) : writeByte b = [b] := by
  have hne {c : UInt8} (hc : c < 0x80) : (b == c) = false := by
    rw [beq_eq_false_iff_ne]
    rintro rfl
    exact UInt8.not_le.2 hc hb
  have hlow : ¬b < 0x20 := UInt8.not_lt.2 (UInt8.le_trans (by decide) hb)
  unfold writeByte
  simp only [hne (show (0x22 : UInt8) < 0x80 by decide), hne (show (0x5C : UInt8) < 0x80 by decide),
    hne (show (0x08 : UInt8) < 0x80 by decide), hne (show (0x09 : UInt8) < 0x80 by decide),
    hne (show (0x0A : UInt8) < 0x80 by decide), hne (show (0x0C : UInt8) < 0x80 by decide),
    hne (show (0x0D : UInt8) < 0x80 by decide), hne (show (0x7F : UInt8) < 0x80 by decide), hlow,
    decide_false, Bool.or_false, Bool.false_eq_true, if_false]

/-- A well-formed text is written legibly: of a sequence of several bytes none is escaped, and an
escaped byte is a whole sequence. -/
theorem legible_written {value : Text} (h : value.isUtf8 = true) :
    Legible (value.flatMap writeByte) := by
  apply isUtf8_induction (motive := fun value => Legible (value.flatMap writeByte)) legible_nil ?_ h
  intro point bytes rest hencodes ih
  rw [List.flatMap_append]
  by_cases hpoint : point < 0x80
  · have hb : point.toUInt8 < 0x80 := by
      rw [UInt8.lt_iff_toNat_lt, show point.toUInt8.toNat = point from
        UInt8.toNat_ofNat_of_lt' (show point < 256 by omega)]
      exact hpoint
    rw [hencodes.ascii hpoint, List.flatMap_singleton]
    exact ((written_writeByte _).legible hb).append ih
  · have hhigh := hencodes.high (Nat.le_of_not_lt hpoint)
    have hself : bytes.flatMap writeByte = bytes := by
      rw [List.flatMap_congr fun b hb => writeByte_of_high (hhigh b hb)]
      exact List.flatMap_singleton' bytes
    rw [hself]
    refine Legible.append ⟨?_, fun b hb => .inl ⟨?_, ?_⟩⟩ ih
    · rw [← List.append_nil bytes, hencodes.isUtf8_append, isUtf8_nil]
    · exact UInt8.le_trans (by decide) (hhigh b hb)
    · rintro rfl
      exact absurd (hhigh _ hb) (by decide)

/-- An entry of well-formed texts. -/
structure WellFormed (entry : LockedDependency) : Prop where
  name : entry.name.isUtf8 = true
  git : entry.git.isUtf8 = true
  tag : entry.tag.isUtf8 = true
  commit : entry.commit.isUtf8 = true
  path : entry.path.isUtf8 = true

/-- A field is legible if its value is UTF-8: whatever is not printable in it is escaped. -/
theorem legible_writeField {name : String} {value : Text} (hname : Text.ofString name ∈ fieldNames)
    (hvalue : value.isUtf8 = true) : Legible (writeField name value) := by
  have hletters : Legible (Text.ofString name) := by
    apply legible_of_ascii
    have hnames : ∀ name ∈ fieldNames, ∀ b ∈ name, (0x20 ≤ b ∧ b < 0x7F) ∨ b = 0x0A := by
      decide
    exact hnames _ hname
  rw [writeField_eq]
  have hopening : Legible [0x20, 0x3D, 0x20, 0x22] := legible_of_ascii (by decide)
  have hclosing : Legible [0x22, 0x0A] := legible_of_ascii (by decide)
  have hindent : Legible [0x20, 0x20] := legible_of_ascii (by decide)
  exact hindent.append (hletters.append (hopening.append ((legible_written hvalue).append hclosing)))

theorem legible_writeEntry {entry : LockedDependency} (h : WellFormed entry) :
    Legible (writeEntry entry) := by
  have hheader : Legible (Text.ofString "[[dep]]\n") := legible_of_ascii (by decide)
  have hoptional {name : String} {value : Text} (hname : Text.ofString name ∈ fieldNames)
      (hvalue : value.isUtf8 = true) : Legible (writeOptional name value) := by
    unfold writeOptional
    split
    · exact legible_nil
    · exact legible_writeField hname hvalue
  have hnames : Text.ofString "name" ∈ fieldNames ∧ Text.ofString "git" ∈ fieldNames
      ∧ Text.ofString "tag" ∈ fieldNames ∧ Text.ofString "commit" ∈ fieldNames
      ∧ Text.ofString "path" ∈ fieldNames := by decide
  obtain ⟨hname, hgit, htag, hcommit, hpath⟩ := hnames
  exact ((((hheader.append (legible_writeField hname h.name)).append (hoptional hgit h.git)).append
    (hoptional htag h.tag)).append (hoptional hcommit h.commit)).append (hoptional hpath h.path)

/-- So is the whole file. -/
theorem legible_render {lock : LockFile} (h : ∀ entry ∈ lock, WellFormed entry) :
    Legible (render lock) := by
  have hline : Legible (Text.ofString "\n") := legible_of_ascii (by decide)
  have hcomment : Legible (Text.ofString "# Generated by barc. Do not edit.\n\n") :=
    legible_of_ascii (by decide)
  refine hcomment.append ?_
  cases lock with
  | nil => exact legible_nil
  | cons entry lock =>
      induction lock generalizing entry with
      | nil =>
          have hentry := legible_writeEntry (h entry List.mem_cons_self)
          simpa [Text.join] using hentry
      | cons next lock ih =>
          have hentry := legible_writeEntry (h entry List.mem_cons_self)
          have hmore := ih next fun other hother => h other (List.mem_cons_of_mem _ hother)
          exact hentry.append (hline.append hmore)

/-! ## Whole files -/

/-- A rendered lock file is a document, and the document holds its entries. -/
theorem parse_render {lock : LockFile} (h : ∀ entry ∈ lock, WellFormed entry) :
    (Toml.parse (render lock)).bind ofDocument? = some lock := by
  have hlegible := legible_render h
  have hmark : dropMark (render lock) = render lock := by
    rw [render, comment_eq]
    rfl
  have hread := reads_render lock ((render lock).length + 1) (Nat.lt_succ_self _)
  rw [Toml.parse, hmark, hlegible.utf8, hlegible.isPrintable]
  simp only [Bool.and_self, if_true, hread, Option.map_some, Option.bind_some]
  exact ofDocument?_drafted lock

/-- A lock file that was written is read back. -/
theorem read_of_write {tree tree' : FileTree} {path : Text} {lock : LockFile}
    (h : ∀ entry ∈ lock, WellFormed entry) (hwrite : write tree path lock = .ok tree') :
    read Toml.parse tree' path = .ok (some lock) := by
  have hcontent : tree'.read path = .ok (render lock) := FileTree.read_of_write hwrite
  simp only [read, hcontent, parse_render h]

end LockFile

namespace Manifest

/-- Whatever is resolved was found by the search. -/
theorem exists_resolveAll {toml : Toml.Reader} {tree tree' : FileTree} {m : Manifest}
    {order : List ResolvedDependency} (h : m.resolveDependencies toml tree = .ok (order, tree'))
    (hm : m.dependencies ≠ []) : ∃ done, done.order = order ∧ resolveAll toml tree
      (((m.namesInReach toml tree).length + 1) * ((m.namesInReach toml tree).length + 1)) m
      m.sortedDependencies {} = .ok done := by
  have hempty : m.dependencies.isEmpty = false := by simpa using hm
  simp only [resolveDependencies, hempty, Bool.false_eq_true, if_false] at h
  cases hread : LockFile.read toml tree m.lockPath with
  | error cause =>
      rw [hread] at h
      cases h
  | ok old =>
      simp only [hread, bind, Except.bind] at h
      split at h
      · cases h
      · next done hrun =>
          refine ⟨done, ?_, hrun⟩
          cases hrecord : m.recordLock tree (m.lockOf done.order) with
          | error error =>
              rw [hrecord] at h
              cases h
          | ok written =>
              rw [hrecord] at h
              cases h
              rfl

/-- What resolving recorded is what the lock file is read as. -/
theorem read_recorded {tree tree' : FileTree} {m : Manifest} {order : List ResolvedDependency}
    (h : m.resolveDependencies Toml.parse tree = .ok (order, tree')) (hm : m.dependencies ≠ [])
    (htexts : ∀ entry ∈ m.lockOf order, LockFile.WellFormed entry) :
    LockFile.read Toml.parse tree' m.lockPath = .ok (some (m.lockOf order)) := by
  obtain ⟨done, rfl, hrun⟩ := exists_resolveAll h hm
  have hcontent := (answers_of_resolveAll hrun).recorded tree' h hm
  simp only [LockFile.read, hcontent, LockFile.parse_render htexts]

end Manifest

end TickScript
