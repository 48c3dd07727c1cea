import TickScript.Editor.References
import TickScript.Proofs.Name
import TickScript.Proofs.Token.Lines
import TickScript.Proofs.Token.Runs

/-!
# Uses of a word

The columns of a word are searched in the lines on which it is a token, and the search knows neither
strings nor comments. So what is found is exact in both of its halves, and not as a whole:

* a column is listed where the word stands alone, between bytes that are no letters, digits or
  underscores;
* a line is listed if it has a text token spelled as the word behind an even number of quotes.

With no string left open on the lines before, and no backslash in the code of the line, the second
says that an identifier on the line is spelled as the word. On such a line the identifiers are listed,
and with them what stands alone in its comments, in its strings and in the middle of its runs.

The proofs go by lines because the search does. `UsedFrom` follows the tokens of the whole text with
a count of the quotes so far, and `usedFrom_append` cuts that at the ends of lines. Columns are
searched in the bytes of the line, apart from its tokens; `mem_wordColumns` says that this search is
exact.

For what an identifier is, the text is read a second time, by the reader of `Proofs.Token.Places`,
which knows strings and comments and does not use the scanner. The two agree on lines that begin
outside of a string and hold no backslash in their code (`usedFrom_iff_identifierAt`).
-/

namespace TickScript.Editor

open Text

variable {word line rest text : Text} {front : Option UInt8} {number : Int} {start column : Nat}
  {b : UInt8}

/-! ## Columns -/

/-- The word is at a column of a text that starts at the column `start` behind the byte `front`, and
stands alone there. -/
def FoundAt (word : Text) (front : Option UInt8) (start : Nat) (line : Text) (column : Nat) : Prop :=
  ∃ before after, line = before ++ word ++ after ∧ start + before.length = column
    ∧ (∀ b ∈ before.getLast?.or front, isWord b = false) ∧ ∀ b ∈ after.head?, isWord b = false

/-- A word is dropped from the front of a text that begins with it. -/
theorem dropHead?_eq_some {head t : Text} : dropHead? head t = some rest ↔ t = head ++ rest := by
  fun_induction dropHead? head t with
  | case1 t => simp
  | case2 b head => simp
  | case3 h head b t heq ih =>
      obtain rfl : h = b := by simpa using heq
      simp [ih]
  | case4 h head b t hne =>
      have hne' : b ≠ h := by
        rintro rfl
        simp at hne
      simp [hne']

theorem getLast?_cons_or (b : UInt8) (t : Text) (front : Option UInt8) :
    (b :: t).getLast?.or front = t.getLast?.or (some b) := by
  cases h : t.getLast? <;> simp [List.getLast?_cons, h]

section

variable (hne : word ≠ []) (hword : ∀ b ∈ word, isWord b = true)

include hne in
theorem not_foundAt_nil : ¬FoundAt word front start [] column := by
  rintro ⟨before, after, hline, -⟩
  simp_all

/-- A line that does not begin with the word has it further back, behind its first byte. -/
theorem foundAt_cons (hnone : dropHead? word (b :: line) = none) :
    FoundAt word front start (b :: line) column ↔ FoundAt word (some b) (start + 1) line column := by
  constructor
  · rintro ⟨before, after, hline, hcolumn, hbefore, hafter⟩
    cases before with
    | nil =>
        rw [dropHead?_eq_some.2 (show b :: line = word ++ after from hline)] at hnone
        cases hnone
    | cons c before =>
        obtain ⟨rfl, hrest⟩ := List.cons.inj hline
        rw [getLast?_cons_or] at hbefore
        rw [List.length_cons] at hcolumn
        exact ⟨before, after, hrest, by omega, hbefore, hafter⟩
  · rintro ⟨before, after, hline, hcolumn, hbefore, hafter⟩
    refine ⟨b :: before, after, by simp [hline], by simp; omega, ?_, hafter⟩
    rwa [getLast?_cons_or]

include hne hword in
/-- The word that starts a text is found if it stands alone. What else is found is behind it. -/
theorem foundAt_word : FoundAt word front start (word ++ rest) column ↔
    (column = start ∧ (∀ b ∈ front, isWord b = false) ∧ ∀ b ∈ rest.head?, isWord b = false)
      ∨ FoundAt word word.getLast? (start + word.length) rest column := by
  have hlast (before : Text) : (word ++ before).getLast?.or front = before.getLast?.or word.getLast? := by
    have hsome : word.getLast?.or front = word.getLast? := by
      rw [List.getLast?_eq_some_getLast hne]
      rfl
    rw [List.getLast?_append, Option.or_assoc, hsome]
  constructor
  · rintro ⟨before, after, hline, hcolumn, hbefore, hafter⟩
    rw [List.append_assoc] at hline
    obtain ⟨more, rfl, hrest⟩ | ⟨more, hmore, hrest⟩ := List.append_eq_append_iff.1 hline
    · rw [hlast] at hbefore
      rw [List.length_append] at hcolumn
      exact .inr ⟨more, after, by rw [hrest, List.append_assoc], by omega, hbefore, hafter⟩
    · cases before with
      | nil =>
          obtain rfl : rest = after := List.append_cancel_left hline
          exact .inl ⟨hcolumn.symm, hbefore, hafter⟩
      | cons c before =>
          -- the byte in front would be one of the word
          have hmem : (c :: before).getLast (by simp) ∈ word := by
            rw [hmore]
            exact List.mem_append_left _ (List.getLast_mem _)
          have halone := hbefore ((c :: before).getLast (by simp)) (by simp [List.getLast?_eq_some_getLast])
          rw [hword _ hmem] at halone
          cases halone
  · rintro (⟨rfl, hfront, hrest⟩ | ⟨before, after, rfl, hcolumn, hbefore, hafter⟩)
    · exact ⟨[], rest, rfl, rfl, hfront, hrest⟩
    · refine ⟨word ++ before, after, by simp, by simp; omega, ?_, hafter⟩
      rwa [hlast]

/-- The search looks at the byte on each side of a word and accepts it unless one of them is a letter,
a digit or an underscore. -/
theorem alone_iff : (!((front.map isWord).getD false) && !((rest.head?.map isWord).getD false)) = true
    ↔ (∀ b ∈ front, isWord b = false) ∧ ∀ b ∈ rest.head?, isWord b = false := by
  cases front <;> cases rest <;> simp

include hne in
theorem shorter {fuel : Nat} (hrest : line = word ++ rest) (hfuel : line.length ≤ fuel + 1) :
    rest.length ≤ fuel := by
  have hlength := List.length_pos_iff.2 hne
  rw [hrest, List.length_append] at hfuel
  omega

include hne hword in
/-- The search finds the columns of the word and no others, with fuel for each byte of the line. -/
theorem mem_wordColumns {fuel : Nat} (hfuel : line.length ≤ fuel) :
    column ∈ wordColumns word fuel front start line ↔ FoundAt word front start line column := by
  fun_induction wordColumns word fuel front start line with
  | case1 front start line =>
      obtain rfl : line = [] := by simpa using hfuel
      simp [not_foundAt_nil hne]
  | case2 => simp [not_foundAt_nil hne]
  | case3 fuel front start b line rest hrest alone more halone ih =>
      obtain ⟨hfront, hbehind⟩ := alone_iff.1 halone
      rw [dropHead?_eq_some] at hrest
      rw [hrest, foundAt_word hne hword, List.mem_cons, ih (shorter hne hrest hfuel)]
      exact or_congr_left ⟨fun h => ⟨h, hfront, hbehind⟩, And.left⟩
  | case4 fuel front start b line rest hrest alone more halone ih =>
      rw [dropHead?_eq_some] at hrest
      rw [hrest, foundAt_word hne hword, ih (shorter hne hrest hfuel)]
      exact ⟨.inr, fun h => h.resolve_left fun h => halone (alone_iff.2 h.2)⟩
  | case5 fuel front start b line hnone ih =>
      rw [foundAt_cons hnone]
      exact ih (by simpa using hfuel)

end

/-- Columns are counted from where the search starts. -/
theorem le_of_mem_wordColumns {fuel : Nat} (h : column ∈ wordColumns word fuel front start line) :
    start ≤ column := by
  fun_induction wordColumns word fuel front start line with
  | case1 => cases h
  | case2 => cases h
  | case3 fuel front start b line rest hrest alone more halone ih =>
      rcases List.mem_cons.1 h with rfl | h
      · exact Nat.le_refl _
      · exact Nat.le_of_add_right_le (ih h)
  | case4 fuel front start b line rest hrest alone more halone ih =>
      exact Nat.le_of_add_right_le (ih h)
  | case5 fuel front start b line hnone ih => exact Nat.le_of_succ_le (ih h)

/-- The columns are in order, each once. -/
theorem pairwise_wordColumns (hne : word ≠ []) (fuel : Nat) (front : Option UInt8) (start : Nat)
    (line : Text) : (wordColumns word fuel front start line).Pairwise (· < ·) := by
  have hlength := List.length_pos_iff.2 hne
  fun_induction wordColumns word fuel front start line with
  | case3 fuel front start b line rest hrest alone more halone ih =>
      refine List.pairwise_cons.2 ⟨fun column h => ?_, ih⟩
      have hle := le_of_mem_wordColumns h
      omega
  | case4 fuel front start b line rest hrest alone more halone ih => exact ih
  | case5 fuel front start b line hnone ih => exact ih
  | _ => exact List.Pairwise.nil

/-! ## Lines -/

/-- Among some tokens is a text token spelled as the word, on a line, and with an even number of quotes
before it when there are `count` in front of all of them. -/
def UsedFrom (word : Text) (number : Int) (count : Nat) (tokens : List Token) : Prop :=
  ∃ before t after, tokens = before ++ t :: after ∧ t.kind = .text ∧ t.text = word ∧ t.line = number
    ∧ (count + quoteCount before) % 2 = 0

variable {tokens : List Token} {count : Nat}

/-- A word is used at a token if the quotes before it are even in number; the token itself may be a
quote. -/
theorem usedFrom_cons {t : Token} : UsedFrom word number count (t :: tokens)
    ↔ (t.kind = .text ∧ t.text = word ∧ t.line = number ∧ count % 2 = 0)
      ∨ UsedFrom word number (count + quoteCount [t]) tokens := by
  have hcount (before : List Token) : quoteCount (t :: before) = quoteCount [t] + quoteCount before := by
    simp only [quoteCount, List.countP_cons, List.countP_nil]
    omega
  constructor
  · rintro ⟨before, found, after, htokens, hkind, htext, hline, heven⟩
    cases before with
    | nil =>
        obtain ⟨rfl, rfl⟩ := List.cons.inj htokens
        exact .inl ⟨hkind, htext, hline, heven⟩
    | cons first before =>
        obtain ⟨rfl, hrest⟩ := List.cons.inj htokens
        rw [hcount, ← Nat.add_assoc] at heven
        exact .inr ⟨before, found, after, hrest, hkind, htext, hline, heven⟩
  · rintro (⟨hkind, htext, hline, heven⟩ | ⟨before, found, after, rfl, hkind, htext, hline, heven⟩)
    · exact ⟨[], t, tokens, rfl, hkind, htext, hline, heven⟩
    · refine ⟨t :: before, found, after, rfl, hkind, htext, hline, ?_⟩
      rwa [hcount, ← Nat.add_assoc]

theorem not_usedFrom_nil : ¬UsedFrom word number count [] := by
  rintro ⟨before, t, after, htokens, -⟩
  simp at htokens

/-- The parity of the quotes goes on from one part of the tokens to the next. -/
theorem usedFrom_append {a b : List Token} : UsedFrom word number count (a ++ b)
    ↔ UsedFrom word number count a ∨ UsedFrom word number (count + quoteCount a) b := by
  induction a generalizing count with
  | nil => simp [not_usedFrom_nil, quoteCount]
  | cons t a ih =>
      have hcount : quoteCount (t :: a) = quoteCount [t] + quoteCount a := by
        simp only [quoteCount, List.countP_cons, List.countP_nil]
        omega
      rw [List.cons_append, usedFrom_cons, usedFrom_cons, ih, hcount, or_assoc, Nat.add_assoc]

theorem exists_line_of_usedFrom (h : UsedFrom word number count tokens) :
    ∃ t ∈ tokens, t.line = number := by
  obtain ⟨before, t, after, rfl, -, -, hline, -⟩ := h
  exact ⟨t, by simp, hline⟩

/-- The tokens of one line. -/
theorem usedFrom_line (hlines : ∀ t ∈ tokens, t.line = number) (heven : count % 2 = 0) :
    UsedFrom word number count tokens ↔ HasWord word tokens.reverse := by
  rw [hasWord_iff]
  constructor
  · rintro ⟨before, t, after, rfl, hkind, htext, hline, hquotes⟩
    refine ⟨after.reverse, t, before.reverse, by simp, hkind, htext, ?_⟩
    rw [quoteCount, List.countP_reverse, ← quoteCount]
    omega
  · rintro ⟨after, t, before, htokens, hkind, htext, hquotes⟩
    have hsplit : tokens = before.reverse ++ t :: after.reverse := by
      rw [← List.reverse_reverse tokens, htokens]
      simp
    refine ⟨before.reverse, t, after.reverse, hsplit, hkind, htext,
      hlines t (by simp [hsplit]), ?_⟩
    rw [quoteCount, List.countP_reverse, ← quoteCount]
    omega

/-- The lines are gathered with the parity of the quotes alone; a line that was seen is not taken
again. -/
theorem mem_referenceLines {inString : Bool} {seen : List Int} (hcount : count % 2 = inString.toNat) :
    number ∈ referenceLines word inString seen tokens
      ↔ number ∉ seen ∧ UsedFrom word number count tokens := by
  fun_induction referenceLines word inString seen tokens generalizing count with
  | case1 inString seen => simp [not_usedFrom_nil]
  | case2 inString seen t rest hquote ih =>
      have hone : quoteCount [t] = 1 := by simp [quoteCount, hquote]
      have hnext : (count + 1) % 2 = (!inString).toNat := by cases inString <;> simp_all <;> omega
      rw [ih hnext, usedFrom_cons, hone]
      simp [hquote]
  | case3 inString seen t rest hquote hskip ih =>
      have hzero : quoteCount [t] = 0 := by simp [quoteCount, hquote]
      rw [ih hcount, usedFrom_cons, hzero, Nat.add_zero]
      refine and_congr_right fun hseen => (or_iff_right ?_).symm
      rintro ⟨hkind, htext, rfl, heven⟩
      have hcode : inString = false := by cases inString <;> simp_all
      simp [hcode, hkind, htext, hseen] at hskip
  | case4 inString seen t rest hquote huse ih =>
      have hzero : quoteCount [t] = 0 := by simp [quoteCount, hquote]
      obtain ⟨⟨⟨rfl, hkind⟩, htext⟩, hseen⟩ : ((inString = false ∧ t.kind = .text) ∧ t.text = word)
          ∧ t.line ∉ seen := by
        simpa using huse
      rw [List.mem_cons, ih hcount, usedFrom_cons, hzero, Nat.add_zero]
      have heven : count % 2 = 0 := hcount
      by_cases hnumber : number = t.line
      · simp [hnumber, hseen, hkind, htext, heven]
      · simp [hnumber, Ne.symm hnumber]

/-- The lines are in order, each once. -/
theorem pairwise_referenceLines {inString : Bool} {seen : List Int} (hcount : count % 2 = inString.toNat)
    (hsorted : (tokens.map Token.line).Pairwise (· ≤ ·)) :
    (referenceLines word inString seen tokens).Pairwise (· < ·) := by
  fun_induction referenceLines word inString seen tokens generalizing count with
  | case1 inString seen => exact List.Pairwise.nil
  | case2 inString seen t rest hquote ih =>
      have hnext : (count + 1) % 2 = (!inString).toNat := by cases inString <;> simp_all <;> omega
      exact ih hnext (List.Pairwise.of_cons hsorted)
  | case3 inString seen t rest hquote hskip ih => exact ih hcount (List.Pairwise.of_cons hsorted)
  | case4 inString seen t rest hquote huse ih =>
      rw [List.map_cons, List.pairwise_cons] at hsorted
      refine List.pairwise_cons.2 ⟨fun number hnumber => ?_, ih hcount hsorted.2⟩
      obtain ⟨hnew, hused⟩ := (mem_referenceLines hcount).1 hnumber
      obtain ⟨t', ht', rfl⟩ := exists_line_of_usedFrom hused
      have hle := hsorted.1 t'.line (List.mem_map_of_mem ht')
      have hne : t'.line ≠ t.line := fun heq => hnew (heq ▸ List.mem_cons_self)
      omega

/-! ## Lines of a text -/

/-- Some lines with their ends. -/
def withEnds (lines : List Text) : Text := lines.flatMap (· ++ [0x0A])

/-- No line has a line break in it, so none is part of a string literal. -/
theorem count_places_line {r : Region} {l : Text} (hl : 0x0A ∉ l) :
    (places r l).count (.string, 0x0A) = 0 := by
  refine List.count_eq_zero.2 fun hmem => hl ?_
  rw [← map_snd_places r l]
  exact List.mem_map_of_mem hmem

/-- What the scanner says of the lines further back depends only on whether they begin in a comment.
-/
theorem scanLines_append (inComment : Bool) (k : Nat) (lines more : List Text)
    (h : ∀ l ∈ lines, 0x0A ∉ l) :
    ∃ inComment', scanLines inComment (numberedFrom k (lines ++ more))
        = scanLines inComment (numberedFrom k lines)
          ++ scanLines inComment' (numberedFrom (k + lines.length) more)
      ∧ Region.ofLine inComment' = behind (.ofLine inComment) (withEnds lines)
      ∧ quoteCount (scanLines inComment (numberedFrom k lines)).flatten % 2
        = (places (.ofLine inComment) (withEnds lines)).count (.string, 0x0A) % 2 := by
  induction lines generalizing inComment k with
  | nil => exact ⟨inComment, rfl, rfl, rfl⟩
  | cons l lines ih =>
      have hl := h l List.mem_cons_self
      obtain ⟨inComment', hscan, hregion, hquotes⟩ := ih (scanLine inComment (k + 1) l).2 (k + 1)
        fun l hl => h l (List.mem_cons_of_mem _ hl)
      have hnext := (scanLine_blankFrom inComment (k + 1) hl).2
      have hends : withEnds (l :: lines) = l ++ 0x0A :: withEnds lines := by simp [withEnds]
      rw [hnext] at hregion hquotes
      refine ⟨inComment', ?_, ?_, ?_⟩
      · rw [List.cons_append, scanLines_cons, scanLines_cons, hscan, List.length_cons,
          Nat.add_right_comm k 1, Nat.add_assoc k]
        rfl
      · rw [hregion, hends, behind_newline]
      · -- the end of a line is in a string when the line leaves a quote open
        have hopen (rest : List (Place × UInt8)) :
            (((behind (.ofLine inComment) l).newline, 0x0A) :: rest).count (.string, 0x0A)
              = (behind (.ofLine inComment) l).openQuotes + rest.count (.string, 0x0A) := by
          cases behind (.ofLine inComment) l <;>
            simp [Region.newline, Region.place, Nat.add_comm]
        have hline := quoteCount_scanLine inComment (k + 1) hl
        rw [hends, places_newline, List.count_append, count_places_line hl, hopen, scanLines_cons,
          List.flatten_cons, quoteCount, List.countP_append, ← quoteCount, ← quoteCount]
        omega

/-! ## Uses -/

/-- The text in front of a line, counted from zero. -/
def textBefore (text : Text) (k : Nat) : Text := withEnds ((splitOn 0x0A text).take k)

/-- The word stands alone at a column of a line: with no letter, digit or underscore on either side. -/
def StandsAlone (text word : Text) (number : Int) (column : Nat) : Prop :=
  ∃ (k : Nat) (before after : Text), number = k + 1
    ∧ (splitOn 0x0A text)[k]? = some (before ++ word ++ after) ∧ before.length = column
    ∧ Apart isWord before after

/-- A keyword, in any case. -/
def IsKeyword (word : Text) : Prop := ∃ entry ∈ TokenKind.keywords, equalFold entry.1 word = true

/-- An identifier starts at a column of a line and is spelled as the word: the reader of the text is in
code there, the word is a whole run of characters, and no keyword. -/
def IdentifierAt (text word : Text) (number : Int) (column : Nat) : Prop :=
  ∃ (k : Nat) (line : Text), number = k + 1 ∧ (splitOn 0x0A text)[k]? = some line
    ∧ RunAt (behind .code (textBefore text k)) word line column ∧ ¬IsKeyword word

theorem inRun_of_isWord (h : isWord b = true) : inRun b = true := by
  have hall : ∀ n < 256, isWord (UInt8.ofNat n) = true → inRun (UInt8.ofNat n) = true := by
    decide +kernel
  have hb := hall b.toNat b.toNat_lt
  rw [UInt8.ofNat_toNat] at hb
  exact hb h

/-- An identifier is a run of characters and no number. -/
theorem isIdentifier_run (h : isIdentifier word = true) :
    word ≠ [] ∧ (∀ b ∈ word, inRun b = true) ∧ ((classify 0 word).kind = .text ↔ ¬IsKeyword word) := by
  have hbytes := isWord_of_isIdentifier h
  cases word with
  | nil => cases h
  | cons first others =>
      have hnumeral : isNumeral (first :: others) = false := by
        have hdigit : isDigit first = false := by
          simp only [isIdentifier, Bool.and_eq_true, Bool.not_eq_true'] at h
          exact h.1
        have hpoint : first ≠ 0x2E := by
          rintro rfl
          exact absurd (hbytes _ List.mem_cons_self) (by decide)
        simp [isNumeral, hdigit, hpoint]
      have hkeywords : ∀ entry ∈ TokenKind.keywords, entry.2 ≠ .text := by decide
      refine ⟨by simp, fun b hb => inRun_of_isWord (hbytes b hb), ?_⟩
      simp only [classify, hnumeral, Bool.false_eq_true, if_false]
      cases hfind : TokenKind.keywords.find? fun entry => equalFold entry.1 (first :: others) with
      | none =>
          have hnone := List.find?_eq_none.1 hfind
          refine iff_of_true rfl ?_
          rintro ⟨entry, hentry, hfold⟩
          exact hnone entry hentry hfold
      | some entry =>
          have hentry := List.mem_of_find?_eq_some hfind
          have hfold := List.find?_some hfind
          exact iff_of_false (hkeywords entry hentry) (not_not_intro ⟨entry, hentry, hfold⟩)

/-- A place is listed exactly if the word stands alone there and is a token of that line. -/
theorem mem_references (hne : word ≠ []) (hword : ∀ b ∈ word, isWord b = true) :
    (number, column) ∈ references text word
      ↔ StandsAlone text word number column ∧ UsedFrom word number 0 (tokenize text) := by
  -- the two halves, lines and columns, are each exact
  have hlines : number ∈ referenceLines word false [] (tokenize text)
      ↔ UsedFrom word number 0 (tokenize text) := by
    have hcount : 0 % 2 = false.toNat := rfl
    rw [mem_referenceLines hcount]
    simp
  have hcolumns (line : Text) : column ∈ wordColumns word line.length none 0 line
      ↔ ∃ before after, line = before ++ word ++ after ∧ before.length = column
        ∧ Apart isWord before after := by
    rw [mem_wordColumns hne hword (Nat.le_refl _)]
    simp only [FoundAt, Apart, Option.or_none, Nat.zero_add]
  simp only [references, List.mem_flatMap]
  -- the number of a line counts from one, its place in the text from zero
  constructor
  · rintro ⟨listed, hused, hcolumn⟩
    split at hcolumn
    · next line hline =>
        obtain ⟨found, hfound, heq⟩ := List.mem_map.1 hcolumn
        obtain ⟨rfl, rfl⟩ := Prod.mk.inj heq
        obtain ⟨before, after, rfl, hlength, hapart⟩ := (hcolumns line).1 hfound
        split at hline
        · cases hline
        · exact ⟨⟨(listed - 1).toNat, before, after, by omega, hline, hlength, hapart⟩, hlines.1 hused⟩
    · cases hcolumn
  · rintro ⟨⟨k, before, after, rfl, hline, hlength, hapart⟩, hused⟩
    refine ⟨k + 1, hlines.2 hused, ?_⟩
    rw [if_neg (by omega), Int.add_sub_cancel, Int.toNat_natCast, hline]
    exact List.mem_map_of_mem ((hcolumns _).2 ⟨before, after, rfl, hlength, hapart⟩)

/-- The places come in the order of the text, each one once. -/
theorem pairwise_references (hne : word ≠ []) (text : Text) :
    (references text word).Pairwise fun p q => p.1 < q.1 ∨ p.1 = q.1 ∧ p.2 < q.2 := by
  have hsorted : (referenceLines word false [] (tokenize text)).Pairwise (· < ·) :=
    pairwise_referenceLines (show 0 % 2 = false.toNat from rfl)
      (pairwise_line_scanLines false 0 (splitOn 0x0A text))
  refine List.pairwise_flatMap.2 ⟨fun number _ => ?_, hsorted.imp fun hlt p hp q hq => .inl ?_⟩
  · split
    · exact List.Pairwise.map _ (fun _ _ hlt => .inr ⟨rfl, hlt⟩) (pairwise_wordColumns hne _ _ _ _)
    · exact List.Pairwise.nil
  · split at hp
    · obtain ⟨column, -, rfl⟩ := List.mem_map.1 hp
      split at hq
      · obtain ⟨column', -, rfl⟩ := List.mem_map.1 hq
        exact hlt
      · cases hq
    · cases hp

/-- On a line with an even number of strings left open before, and without a backslash in its code, the
text tokens outside of strings are the identifiers. -/
theorem usedFrom_iff_identifierAt (hword : isIdentifier word = true) {k : Nat}
    (hline : (splitOn 0x0A text)[k]? = some line)
    (hclosed : (places .code (textBefore text k)).count (.string, 0x0A) % 2 = 0)
    (hplain : (Place.code, 0x5C) ∉ places (behind .code (textBefore text k)) line) :
    UsedFrom word (k + 1) 0 (tokenize text) ↔ ∃ column, IdentifierAt text word (k + 1) column := by
  obtain ⟨hne, hrun, hkind⟩ := isIdentifier_run hword
  obtain ⟨hk, rfl⟩ := List.getElem?_eq_some_iff.1 hline
  have hnewline (l : Text) (hl : l ∈ splitOn 0x0A text) : 0x0A ∉ l := notMem_of_mem_splitOn hl
  -- the tokens are cut in front of the line and behind it
  obtain ⟨inComment, hscan, hregion, hquotes⟩ := scanLines_append false 0
    ((splitOn 0x0A text).take k) ((splitOn 0x0A text).drop k)
    fun l hl => hnewline l (List.mem_of_mem_take hl)
  have hregion' : Region.ofLine inComment = behind .code (textBefore text k) := hregion
  have hlength : ((splitOn 0x0A text).take k).length = k := by simp; omega
  rw [List.take_append_drop, hlength, Nat.zero_add, List.drop_eq_getElem_cons hk, scanLines_cons] at hscan
  rw [← hregion'] at hplain
  -- tokens further back or further on have other numbers
  have hbefore : ¬UsedFrom word (k + 1) 0
      (scanLines false (numberedFrom 0 ((splitOn 0x0A text).take k))).flatten := by
    intro hused
    obtain ⟨t, ht, hnumber⟩ := exists_line_of_usedFrom hused
    have hle := (line_of_mem_scanLines ht).2
    omega
  have hafter (inComment : Bool) (count : Nat) : ¬UsedFrom word (k + 1) count
      (scanLines inComment (numberedFrom (k + 1) ((splitOn 0x0A text).drop (k + 1)))).flatten := by
    intro hused
    obtain ⟨t, ht, hnumber⟩ := exists_line_of_usedFrom hused
    have hle := (line_of_mem_scanLines ht).1
    omega
  -- an even number of quotes in front of the line, so a word of the line is in the code if it is so
  -- by itself
  have heven : quoteCount (scanLines false (numberedFrom 0 ((splitOn 0x0A text).take k))).flatten % 2 = 0 :=
    hquotes.trans hclosed
  rw [tokenize_eq, hscan, List.flatten_append, usedFrom_append, or_iff_right hbefore, List.flatten_cons,
    usedFrom_append, or_iff_left (hafter _ _), Nat.zero_add,
    usedFrom_line (fun t ht => line_of_mem_scanLine ht) heven,
    hasWord_scanLine hne hrun inComment _ (hnewline _ (List.getElem_mem hk)) hplain, hkind]
  -- both sides are now about runs of the line
  constructor
  · rintro ⟨hkeyword, column, hat⟩
    exact ⟨column, k, _, rfl, hline, hregion' ▸ hat, hkeyword⟩
  · rintro ⟨column, k', line, hnumber, hline', hat, hkeyword⟩
    obtain rfl : k = k' := by omega
    obtain rfl := Option.some.inj (hline.symm.trans hline')
    exact ⟨hkeyword, column, hregion' ▸ hat⟩

/-- Every identifier stands alone. -/
theorem IdentifierAt.standsAlone (h : IdentifierAt text word number column) :
    StandsAlone text word number column := by
  have hword {b : UInt8} (h : inRun b = false) : isWord b = false := by
    by_contra hb
    rw [inRun_of_isWord (by simpa using hb)] at h
    cases h
  obtain ⟨k, line, rfl, hline, ⟨before, after, rfl, hcolumn, -, hbefore, hafter⟩, -⟩ := h
  exact ⟨k, before, after, rfl, hline, hcolumn, fun b hb => hword (hbefore b hb),
    fun b hb => hword (hafter b hb)⟩

/-- The uses of an identifier are listed in the order of the text, each once. A place is listed exactly
if the word stands alone there, on a line with a text token spelled as the word behind an even number
of quotes. With an even number of strings left open before the line and no backslash in its code, this
is so if an identifier on the line is spelled as the word: then every such identifier is listed, and
nothing else if the word stands alone nowhere else on the line. -/
theorem references_of_identifier (hword : isIdentifier word = true) (text : Text) :
    ((references text word).Pairwise fun p q => p.1 < q.1 ∨ p.1 = q.1 ∧ p.2 < q.2)
    ∧ (∀ number column, (number, column) ∈ references text word
      ↔ StandsAlone text word number column ∧ UsedFrom word number 0 (tokenize text))
    ∧ ∀ k line, (splitOn 0x0A text)[k]? = some line →
      (places .code (textBefore text k)).count (.string, 0x0A) % 2 = 0 →
      (Place.code, 0x5C) ∉ places (behind .code (textBefore text k)) line →
      (∀ column, ((k : Int) + 1, column) ∈ references text word
        ↔ StandsAlone text word (k + 1) column ∧ ∃ other, IdentifierAt text word (k + 1) other)
      ∧ (∀ column, IdentifierAt text word (k + 1) column → ((k : Int) + 1, column) ∈ references text word)
      ∧ ((∀ column other, StandsAlone text word (k + 1) column → IdentifierAt text word (k + 1) other →
          IdentifierAt text word (k + 1) column) →
        ∀ column, ((k : Int) + 1, column) ∈ references text word
          ↔ IdentifierAt text word (k + 1) column) := by
  obtain ⟨hne, -, -⟩ := isIdentifier_run hword
  have hbytes := isWord_of_isIdentifier hword
  refine ⟨pairwise_references hne text, fun _ _ => mem_references hne hbytes,
    fun k line hline hclosed hplain => ?_⟩
  have hlisted (column : Nat) : ((k : Int) + 1, column) ∈ references text word
      ↔ StandsAlone text word (k + 1) column ∧ ∃ other, IdentifierAt text word (k + 1) other := by
    rw [mem_references hne hbytes, usedFrom_iff_identifierAt hword hline hclosed hplain]
  have hidentifier (column : Nat) (h : IdentifierAt text word (k + 1) column) :
      ((k : Int) + 1, column) ∈ references text word :=
    (hlisted column).2 ⟨h.standsAlone, column, h⟩
  refine ⟨hlisted, hidentifier, fun honly column => ⟨fun h => ?_, hidentifier column⟩⟩
  obtain ⟨halone, other, hother⟩ := (hlisted column).1 h
  exact honly column other halone hother

/-- A declaration with a comment on its variable. -/
def commented : Text := "int x; // x"

/-- The variable is listed, and so is the comment. -/
theorem commented_references :
    isIdentifier "x" = true
    ∧ IdentifierAt commented "x" 1 4 ∧ (1, 4) ∈ references commented "x"
    ∧ ¬IdentifierAt commented "x" 1 10 ∧ (1, 10) ∈ references commented "x" := by
  have hline : (splitOn 0x0A commented)[0]? = some commented := by decide +kernel
  have hkeyword : ¬IsKeyword "x" := by
    have hall : ∀ entry ∈ TokenKind.keywords, equalFold entry.1 "x" = false := by decide +kernel
    rintro ⟨entry, hentry, hfold⟩
    rw [hall entry hentry] at hfold
    cases hfold
  have hvariable : IdentifierAt commented "x" 1 4 :=
    ⟨0, commented, rfl, hline, ⟨"int ", "; // x", by decide, by decide, by decide,
      by decide +kernel, by decide +kernel⟩, hkeyword⟩
  -- the word in the comment stands alone as well, and the line has the identifier
  have hcomment : StandsAlone commented "x" 1 10 :=
    ⟨0, "int x; // ", "", rfl, by decide, by decide, by decide +kernel, by decide +kernel⟩
  have hword : isIdentifier "x" = true := by decide
  obtain ⟨-, -, hline'⟩ := references_of_identifier hword commented
  obtain ⟨hlisted, hidentifier, -⟩ := hline' 0 commented hline (by decide) (by decide)
  refine ⟨hword, hvariable, hidentifier 4 hvariable, ?_, (hlisted 10).2 ⟨hcomment, 4, hvariable⟩⟩
  rintro ⟨k, line, hk, hfound, ⟨before, after, rfl, hlength, hcode, -⟩, -⟩
  obtain rfl : k = 0 := by omega
  have hsplit : before ++ ("x" ++ after) = commented.take 10 ++ commented.drop 10 := by
    rw [List.take_append_drop, ← List.append_assoc]
    exact Option.some.inj (hfound.symm.trans hline)
  obtain ⟨rfl, -⟩ := List.append_inj hsplit (hlength.trans (by decide))
  -- but the reader of the text is in the comment there
  have hreader : behind (behind .code (textBefore commented 0)) (commented.take 10) = .lineComment := by
    decide
  rw [hreader] at hcode
  cases hcode

end TickScript.Editor
