import TickScript.Proofs.Token.Signs

/-!
# Writing tokens down again

`rewrite` writes tokens as words with single spaces between them: a string is written as one word, with
escapes for the bytes that need them, and every other token as its text. The scanner reads from this
what was written (`scanRest_words`).

What the scanner makes of a source without open strings and without backslashes in its code are always
the tokens of such words (`exists_words`). The induction is over the scanner's own steps. Its invariant
`ScanMode.Kept` says what the scanner has in hand between two bytes: the tokens of some words, and a run
of characters, a sign that may still be joined, or the quote of a string that is not finished.

Between two words stands a space, and inside of a word the scanner meets no end of one, so the words
of a rewritten source are cut where they were put together. The one condition on a source is that it
is `Tidy`: a string that its line leaves open has no closing quote to be written, and a backslash in
the code is resolved, so the text of its token is not what stood there.
-/

namespace TickScript

open Text

variable {b : UInt8} {t l s content : Text}

/-! ## Strings as words -/

/-- A byte as it is written within a string. -/
def escapeByte : UInt8 → Text
  | 0x5C => [0x5C, 0x5C]
  | 0x22 => [0x5C, 0x22]
  | 0x0A => [0x5C, 0x6E]
  | 0x0D => [0x5C, 0x72]
  | 0x09 => [0x5C, 0x74]
  | 0x00 => [0x5C, 0x30]
  | b => [b]

/-- The string with a content, as it is written. -/
def stringLiteral (content : Text) : Text := 0x22 :: (content.flatMap escapeByte ++ [0x22])

/-- A byte is written as an escape that stands for it, or as it is. -/
theorem escapeByte_cases (b : UInt8) :
    (∃ c, escapeByte b = [0x5C, c] ∧ escaped c = b ∧ c ≠ 0x0A ∧ c ≠ 0x0D)
      ∨ escapeByte b = [b] ∧ b ≠ 0x5C ∧ b ≠ 0x22 ∧ b ≠ 0x0A ∧ b ≠ 0x0D := by
  fun_cases escapeByte b with
  | case7 b => exact .inr (by simp_all)
  | _ => exact .inl ⟨_, rfl, rfl, by decide, by decide⟩

/-- The scanner reads a string as it was written. -/
theorem scanRest_literal (n : Int) (content read : Text) (tokens : List Token) (s : Text) :
    scanRest n (.string read) tokens (content.flatMap escapeByte ++ 0x22 :: s)
      = scanRest n (.code [] false)
        (quoteToken n :: addContent n (content.reverse ++ read) tokens) s := by
  induction content generalizing read with
  | nil => simp [scanRest]
  | cons b content ih =>
      rw [List.flatMap_cons, List.reverse_cons, List.append_assoc, List.append_assoc,
        List.singleton_append, ← ih]
      rcases escapeByte_cases b with ⟨c, hc, hescaped, -⟩ | ⟨hplain, hbackslash, hquote, -⟩
      · rw [hc, ← hescaped]
        rfl
      · rw [hplain]
        simp_all [scanRest]

/-! ## Words -/

/-- A byte that a run of characters may hold. -/
structure IsPlain (b : UInt8) : Prop where
  blank : isBlank b = false
  sign : TokenKind.ofSign? b = none
  backslash : b ≠ 0x5C
  newline : b ≠ 0x0A

/-- A run of characters that the scanner keeps as it is. -/
structure IsRun (t : Text) : Prop where
  /-- A run has a byte. -/
  nonempty : t ≠ []
  /-- It is made of plain bytes. -/
  plain : ∀ b ∈ t, IsPlain b
  /-- It reads as itself. -/
  kept : (classify 0 t).text = t

/-- Signs that are one token. -/
structure IsSign (t : Text) : Prop where
  /-- It is made of signs. -/
  allSigns : AllSigns t
  /-- None of them starts a comment. -/
  inCode : places .code t = t.map (Place.code, ·)
  /-- Together they are one token. -/
  one : ∃ kind, paired t = [⟨kind, t, 0, []⟩] ∧ kind ≠ .quote

/-- A word as it is written. -/
inductive Word where
  /-- A name, a number or a keyword. -/
  | run (t : Text) (h : IsRun t)
  /-- An operator. -/
  | sign (t : Text) (h : IsSign t)
  /-- A string with this content. -/
  | string (content : Text)

namespace Word

/-- How a word is written. -/
def written : Word → Text
  | run t _ => t
  | sign t _ => t
  | string content => stringLiteral content

/-- The tokens of a word. -/
def tokens : Word → List Token
  | run t _ => [classify 0 t]
  | sign t _ => paired t
  | string content =>
    quoteToken 0 :: ((if content.isEmpty then [] else [⟨.text, content, 0, []⟩]) ++ [quoteToken 0])

end Word

/-! ## What the scanner makes of words -/

theorem inert_blank (hs : s = [] ∨ s.head? = some 0x20) : Inert s := by
  rcases hs with rfl | hs
  · simp [Inert]
  · intro b hb
    obtain rfl := Option.some.inj (hs.symm.trans hb)
    decide

theorem startsPlain_blank (hs : s = [] ∨ s.head? = some 0x20) : StartsPlain s := by
  rcases hs with rfl | hs
  · intro b hb
    cases hb
  · obtain ⟨s, rfl⟩ := List.head?_eq_some_iff.1 hs
    intro b hb
    obtain rfl : 0x20 = b := by simpa [places] using hb
    rfl

theorem scanRest_run (h : ∀ b ∈ t, IsPlain b) (n : Int) (run : Text) (tokens : List Token) (s : Text) :
    scanRest n (.code run false) tokens (t ++ s) = scanRest n (.code (t.reverse ++ run) false) tokens s := by
  induction t generalizing run with
  | nil => rfl
  | cons b t ih =>
      obtain ⟨hblank, hsign, -, -⟩ := h b List.mem_cons_self
      have hslash : b ≠ 0x2F := by rintro rfl; cases hsign
      have hquote : b ≠ 0x22 := by rintro rfl; cases hsign
      have hrest := ih (fun c hc => h c (List.mem_cons_of_mem _ hc)) (b :: run)
      simp_all [scanRest]

theorem behind_of_code (h : places .code t = t.map (Place.code, ·)) : behind .code t = .code := by
  induction t with
  | nil => rfl
  | cons b t ih =>
      obtain ⟨hslashes, hstar, hquote, hrest⟩ := of_places_code h
      simp_all [behind]

theorem scanRest_flush (hs : s = [] ∨ s.head? = some 0x20) (n : Int) (run : Text)
    (tokens : List Token) :
    scanRest n (.code run false) tokens s = scanRest n (.code [] false) (flush n run tokens) s := by
  rcases hs with rfl | hs
  · rfl
  · obtain ⟨s, rfl⟩ := List.head?_eq_some_iff.1 hs
    simp [scanRest, show isBlank 0x20 = true from rfl]
    rfl

/-- The scanner reads a word, up to the next blank, as it was written. -/
theorem scanRest_word (w : Word) (hs : s = [] ∨ s.head? = some 0x20) (tokens : List Token) :
    scanRest 0 (.code [] false) tokens (w.written ++ s)
      = scanRest 0 (.code [] false) (w.tokens.reverse ++ tokens) s := by
  cases w with
  | run t h =>
      have hflush : flush 0 (t.reverse ++ []) tokens = classify 0 t :: tokens := by
        simp [flush, h.nonempty]
      rw [Word.written, scanRest_run h.plain, scanRest_flush hs, hflush]
      rfl
  | sign t h =>
      have hcode : places .code (t ++ s) = t.map (Place.code, ·) ++ places .code s := by
        rw [(places_append .code t (inert_blank hs)).1, h.inCode, behind_of_code h.inCode]
      have halone (b) (_ : b ∈ t.head?) : addSign 0 b (signKind b) false tokens
          = (⟨signKind b, [b], 0, []⟩ :: tokens, true) := rfl
      obtain ⟨adjacent, hsigns⟩ := scanRest_signs h.allSigns hcode halone
      rw [Word.written, hsigns, scanRest_startsPlain 0 [] adjacent _ (startsPlain_blank hs)]
      rfl
  | string content =>
      have hopen : scanRest 0 (.code [] false) tokens (stringLiteral content ++ s)
          = scanRest 0 (.string []) (quoteToken 0 :: tokens) (content.flatMap escapeByte ++ 0x22 :: s) := by
        simp [stringLiteral, scanRest, flush]
      rw [Word.written, hopen, scanRest_literal]
      cases content <;> simp [Word.tokens, addContent]

theorem scanRest_words (ws : List Word) (tokens : List Token) :
    scanRest 0 (.code [] false) tokens (join [0x20] (ws.map Word.written))
      = ((ws.flatMap Word.tokens).reverse ++ tokens, false) := by
  induction ws generalizing tokens with
  | nil => rfl
  | cons w ws ih =>
      cases ws with
      | nil =>
          have hword := scanRest_word w (s := []) (.inl rfl) tokens
          rw [List.append_nil] at hword
          simp [join_singleton, hword, scanRest, flush]
      | cons w' ws =>
          have hblank (t : Text) (tokens : List Token) : scanRest 0 (.code [] false) tokens (0x20 :: t)
              = scanRest 0 (.code [] false) tokens t := by
            simp [scanRest, show isBlank 0x20 = true from rfl, flush]
          rw [List.map_cons, List.map_cons, join_cons_cons, List.append_assoc,
            scanRest_word w (.inr rfl), List.singleton_append, hblank, ← List.map_cons, ih]
          simp

/-! ## From tokens to words -/

/-- The words that some tokens are written as: what stands between two quotes is a string, and every
other token is its text. -/
def spellings : List Token → List Text
  | ⟨.quote, _, _, _⟩ :: ⟨.quote, _, _, _⟩ :: rest => stringLiteral [] :: spellings rest
  | ⟨.quote, _, _, _⟩ :: ⟨_, content, _, _⟩ :: _ :: rest => stringLiteral content :: spellings rest
  | t :: rest => t.text :: spellings rest
  | [] => []

/-- Tokens written down with single spaces between them. -/
def rewrite (tokens : List Token) : Text := join [0x20] (spellings tokens)

theorem spellings_cons {token : Token} (h : token.kind ≠ .quote) (rest : List Token) :
    spellings (token :: rest) = token.text :: spellings rest := by
  obtain ⟨kind, text, line, file⟩ := token
  cases kind <;> first | exact absurd rfl h | simp [spellings]

theorem spellings_unplaced (tokens : List Token) :
    spellings (tokens.map Token.unplaced) = spellings tokens := by
  fun_induction spellings tokens with
  | case1 text line file text' line' file' rest ih => simp [Token.unplaced, spellings, ih]
  | case2 text line file kind content line' file' t rest hkind ih =>
      simp_all [Token.unplaced, spellings]
  | case3 t rest hempty hstring ih =>
      obtain ⟨kind, text, line, file⟩ := t
      by_cases hkind : kind = .quote
      · -- a quote with at most one token behind it, which is no quote
        subst hkind
        match rest with
        | [] => rfl
        | [⟨kind', text', line', file'⟩] =>
            cases kind' <;> first | rfl | exact (hempty _ _ _ _ _ _ _ rfl rfl).elim
        | _ :: _ :: _ => exact (hstring _ _ _ _ _ _ _ _ _ rfl rfl).elim
      · rw [List.map_cons, spellings_cons hkind, ih]
        rfl
  | case4 => rfl

theorem classify_ne_quote (n : Int) (run : Text) : (classify n run).kind ≠ .quote := by
  have hkeywords : ∀ entry ∈ TokenKind.keywords, entry.2 ≠ .quote := by decide
  simp only [classify]
  split
  · simp
  · split
    · next hfind => exact hkeywords _ (List.mem_of_find?_eq_some hfind)
    · simp

theorem spellings_words (ws : List Word) :
    spellings (ws.flatMap Word.tokens) = ws.map Word.written := by
  induction ws with
  | nil => rfl
  | cons w ws ih =>
      rw [List.flatMap_cons, List.map_cons, ← ih]
      cases w with
      | run t h =>
          exact (spellings_cons (classify_ne_quote 0 t) _).trans (congrArg (· :: _) h.kept)
      | sign t h =>
          obtain ⟨kind, hone, hkind⟩ := h.one
          rw [Word.tokens, hone]
          exact spellings_cons hkind _
      | string content =>
          cases content with
          | nil => rfl
          | cons b content => rfl

/-! ## What the scanner makes of a source -/

theorem resolveEscapes_of_notMem (h : 0x5C ∉ t) : resolveEscapes t = t := by
  fun_induction resolveEscapes t <;> simp_all

/-- The keywords are runs of characters, and classified as themselves. -/
theorem keywords_kept : ∀ entry ∈ TokenKind.keywords, entry.1 ≠ []
    ∧ (∀ b ∈ entry.1, isBlank b = false ∧ TokenKind.ofSign? b = none ∧ b ≠ 0x5C ∧ b ≠ 0x0A)
    ∧ classify 0 entry.1 = ⟨entry.2, entry.1, 0, []⟩ := by
  decide +kernel

theorem exists_run (hne : t ≠ []) (h : ∀ b ∈ t, IsPlain b) :
    ∃ w : Word, w.tokens = [classify 0 t] := by
  by_cases hnumeral : isNumeral t = true
  · exact ⟨.run t ⟨hne, h, by simp [classify, hnumeral]⟩, rfl⟩
  cases hfind : TokenKind.keywords.find? fun entry => equalFold entry.1 t with
  | some entry =>
      obtain ⟨word, kind⟩ := entry
      obtain ⟨hword, hplain, hkept⟩ := keywords_kept _ (List.mem_of_find?_eq_some hfind)
      refine ⟨.run word ⟨hword, fun b hb => ?_, by rw [hkept]⟩, ?_⟩
      · obtain ⟨hblank, hsign, hbackslash, hnewline⟩ := hplain b hb
        exact ⟨hblank, hsign, hbackslash, hnewline⟩
      · rw [Word.tokens, hkept]
        simp [classify, hnumeral, hfind]
  | none =>
      have hescapes : resolveEscapes t = t :=
        resolveEscapes_of_notMem fun hmem => (h _ hmem).backslash rfl
      exact ⟨.run t ⟨hne, h, by simp [classify, hnumeral, hfind, hescapes]⟩, rfl⟩

theorem ofSign?_eq_quote (h : TokenKind.ofSign? b = some .quote) : b = 0x22 := by
  have hall : ∀ n < 256, TokenKind.ofSign? (UInt8.ofNat n) = some .quote → n = 34 := by decide +kernel
  have hb := hall b.toNat b.toNat_lt (by rwa [UInt8.ofNat_toNat])
  exact UInt8.toNat_inj.1 hb

theorem isSign_single (hb : (TokenKind.ofSign? b).isSome = true) (hquote : b ≠ 0x22) : IsSign [b] where
  allSigns c hc := List.mem_singleton.1 hc ▸ hb
  inCode := by simp [places]
  one := by
    refine ⟨signKind b, rfl, fun hkind => hquote (ofSign?_eq_quote ?_)⟩
    rw [ofSign?_eq_signKind hb, hkind]

theorem isSign_pair {c : UInt8} {operator : TokenKind} (hb : (TokenKind.ofSign? b).isSome = true)
    (hc : (TokenKind.ofSign? c).isSome = true)
    (hjoined : TokenKind.joined? (signKind b) (signKind c) = some operator) : IsSign [b, c] where
  allSigns d hd := by
    rcases List.mem_cons.1 hd with rfl | hd
    · exact hb
    · exact List.mem_singleton.1 hd ▸ hc
  inCode := by
    have hquote : b ≠ 0x22 := by
      rintro rfl
      cases hkind : signKind c <;> rw [hkind] at hjoined <;> cases hjoined
    have hquote' : c ≠ 0x22 := by
      rintro rfl
      cases hkind : signKind b <;> rw [hkind] at hjoined <;> cases hjoined
    have hslashes (h : b = 0x2F) : c ≠ 0x2F := by
      rintro rfl
      subst h
      cases hjoined
    have hstar (h : b = 0x2F) : c ≠ 0x2A := by
      rintro rfl
      subst h
      cases hjoined
    simp_all [places]
  one := by
    refine ⟨operator, by simp [paired, hjoined], ?_⟩
    rintro rfl
    simp only [TokenKind.joined?] at hjoined
    split at hjoined <;> cases hjoined

/-- The tokens, last first, are those of some words. -/
def Worded (tokens : List Token) : Prop := ∃ ws : List Word, tokens.reverse = ws.flatMap Word.tokens

theorem Worded.word {tokens : List Token} (h : Worded tokens) (w : Word) :
    Worded (w.tokens.reverse ++ tokens) := by
  obtain ⟨ws, hws⟩ := h
  exact ⟨ws ++ [w], by simp [hws]⟩

theorem Worded.flush {run : Text} {tokens : List Token} (h : Worded tokens)
    (hrun : ∀ b ∈ run, IsPlain b) : Worded (flush 0 run tokens) := by
  by_cases hne : run = []
  · rwa [hne]
  · obtain ⟨w, hw⟩ := exists_run (t := run.reverse) (by simpa using hne) (by simpa using hrun)
    have hflush : TickScript.flush 0 run tokens = w.tokens.reverse ++ tokens := by
      simp [TickScript.flush, hne, hw]
    exact hflush ▸ h.word w

/-- What the scanner has in hand between two bytes. -/
def ScanMode.Kept : ScanMode → List Token → Prop
  | .code run adjacent, tokens => Worded tokens ∧ (∀ b ∈ run, IsPlain b)
    ∧ (adjacent = true → run = [] ∧ ∃ b rest, tokens = ⟨signKind b, [b], 0, []⟩ :: rest
      ∧ (TokenKind.ofSign? b).isSome = true ∧ Worded rest)
  | .comment, tokens => Worded tokens
  | .string _, tokens => ∃ rest, tokens = quoteToken 0 :: rest ∧ Worded rest

theorem kept_blank {tokens : List Token} (h : Worded tokens) : (ScanMode.code [] false).Kept tokens :=
  ⟨h, by simp, by simp⟩

theorem kept_addSign {run : Text} {adjacent : Bool} {tokens : List Token}
    (h : (ScanMode.code run adjacent).Kept tokens) (hb : (TokenKind.ofSign? b).isSome = true)
    (hquote : b ≠ 0x22) :
    (ScanMode.code [] (addSign 0 b (signKind b) adjacent (flush 0 run tokens)).2).Kept
      (addSign 0 b (signKind b) adjacent (flush 0 run tokens)).1 := by
  obtain ⟨htokens, hrun, hadj⟩ := h
  have halone {tokens : List Token} (h : Worded tokens) :
      (ScanMode.code [] true).Kept (⟨signKind b, [b], 0, []⟩ :: tokens) :=
    ⟨h.word (.sign [b] (isSign_single hb hquote)), fun _ hb => (List.not_mem_nil hb).elim,
      fun _ => ⟨rfl, b, tokens, rfl, hb, h⟩⟩
  cases adjacent with
  | false => exact halone (htokens.flush hrun)
  | true =>
      obtain ⟨rfl, a, rest, rfl, ha, hrest⟩ := hadj rfl
      have hflush : flush 0 [] (⟨signKind a, [a], 0, []⟩ :: rest) = ⟨signKind a, [a], 0, []⟩ :: rest := rfl
      simp only [hflush, addSign]
      cases hjoined : TokenKind.joined? (signKind a) (signKind b) with
      | none => exact halone htokens
      | some operator =>
          refine kept_blank ?_
          have hword := hrest.word (.sign [a, b] (isSign_pair ha hb hjoined))
          rwa [Word.tokens, paired, hjoined] at hword

/-- What is left of a line that ends outside of strings, and holds no backslash in its code, becomes
the tokens of some words. -/
theorem worded_scanRest {mode : ScanMode} {tokens : List Token} (hkept : mode.Kept tokens)
    (hl : 0x0A ∉ l) (hclosed : behind mode.region l ≠ .string)
    (hplain : (Place.code, 0x5C) ∉ places mode.region l) : Worded (scanRest 0 mode tokens l).1 := by
  -- the words so far are kept along every step; a finished run or string is one word more
  fun_induction scanRest 0 mode tokens l with
  | case1 run adjacent tokens => exact hkept.1.flush hkept.2.1
  | case2 tokens => exact hkept
  | case3 content tokens => exact absurd rfl hclosed
  | case4 tokens t ih =>
      have hmove := Moves.closeBlock t
      exact ih (kept_blank hkept) (hmove.notMem hl) (hmove.behind_eq ▸ hclosed)
        (hmove.notMem_places hplain)
  | case5 tokens b t hclose ih =>
      have hmove := Moves.inBlock hclose
      exact ih hkept (hmove.notMem hl) (hmove.behind_eq ▸ hclosed) (hmove.notMem_places hplain)
  | case6 content tokens c t ih =>
      have hmove := Moves.escape t (c := c) (by rintro rfl; simp at hl)
      exact ih hkept (hmove.notMem hl) (hmove.behind_eq ▸ hclosed) (hmove.notMem_places hplain)
  | case7 content tokens t ih =>
      have hmove := Moves.closeString t
      -- the quote and the content become one word, of an empty string perhaps
      obtain ⟨rest, rfl, hrest⟩ := hkept
      refine ih (kept_blank ?_) (hmove.notMem hl) (hmove.behind_eq ▸ hclosed)
        (hmove.notMem_places hplain)
      have hword := hrest.word (.string content.reverse)
      cases content <;> simpa [Word.tokens, addContent] using hword
  | case8 content tokens b t hescape hquote ih =>
      have hmove := Moves.inString hescape hquote (by rintro rfl; simp at hl)
      exact ih hkept (hmove.notMem hl) (hmove.behind_eq ▸ hclosed) (hmove.notMem_places hplain)
  | case9 run adjacent tokens t => exact hkept.1.flush hkept.2.1
  | case10 run adjacent tokens t ih =>
      have hmove := Moves.openBlock t
      exact ih (hkept.1.flush hkept.2.1) (hmove.notMem hl) (hmove.behind_eq ▸ hclosed)
        (hmove.notMem_places hplain)
  | case11 run adjacent tokens t ih =>
      have hmove := Moves.openString t
      exact ih ⟨_, rfl, hkept.1.flush hkept.2.1⟩ (hmove.notMem hl) (hmove.behind_eq ▸ hclosed)
        (hmove.notMem_places hplain)
  | case12 run adjacent tokens b t hslashes hstar hquote hblank ih =>
      have hmove := Moves.inCode hslashes hstar hquote
      exact ih (kept_blank (hkept.1.flush hkept.2.1)) (hmove.notMem hl) (hmove.behind_eq ▸ hclosed)
        (hmove.notMem_places hplain)
  | case13 run adjacent tokens b t hslashes hstar hquote hblank kind hkind added ih =>
      have hmove := Moves.inCode hslashes hstar hquote
      have hb : (TokenKind.ofSign? b).isSome = true := by rw [hkind]; rfl
      -- the kind of the sign is the one that the writer gives to the byte
      obtain rfl : signKind b = kind := Option.some.inj ((ofSign?_eq_signKind hb).symm.trans hkind)
      exact ih (kept_addSign hkept hb hquote) (hmove.notMem hl) (hmove.behind_eq ▸ hclosed)
        (hmove.notMem_places hplain)
  | case14 run adjacent tokens b t hslashes hstar hquote hblank hkind ih =>
      have hmove := Moves.inCode hslashes hstar hquote
      have hbackslash : b ≠ 0x5C := by
        rintro rfl
        rw [ScanMode.region, places_inCode hslashes hstar hquote] at hplain
        exact hplain List.mem_cons_self
      -- the byte is neither a blank, a sign nor a backslash, so the run may grow by it
      have hb : IsPlain b := ⟨by simpa using hblank, hkind, hbackslash, by rintro rfl; simp at hl⟩
      refine ih ⟨hkept.1, ?_, fun hadj => by cases hadj⟩ (hmove.notMem hl)
        (hmove.behind_eq ▸ hclosed) (hmove.notMem_places hplain)
      rintro c hc
      rcases List.mem_cons.1 hc with rfl | hc
      · exact hb
      · exact hkept.2.1 c hc

/-- A source without a string that its line leaves open, and without a backslash in its code. -/
structure Tidy (r : Region) (source : Text) : Prop where
  closed : (Place.string, 0x0A) ∉ places r (source ++ [0x0A])
  plain : (Place.code, 0x5C) ∉ places r source

theorem exists_words_line (inComment : Bool) (hl : 0x0A ∉ l)
    (hclosed : behind (.ofLine inComment) l ≠ .string)
    (hplain : (Place.code, 0x5C) ∉ places (.ofLine inComment) l) :
    ∃ ws : List Word, (scanLine inComment 0 l).1 = ws.flatMap Word.tokens := by
  have hnone : Worded [] := ⟨[], rfl⟩
  have hdrop : 0x0A ∉ dropReturn l ∧ (Place.code, 0x5C) ∉ places (.ofLine inComment) (dropReturn l) := by
    by_cases hlast : l.getLast? = some 0x0D
    · obtain ⟨front, rfl⟩ := List.getLast?_eq_some_iff.1 hlast
      rw [dropReturn_concat]
      rw [(places_return _ front).1] at hplain
      exact ⟨fun hmem => hl (List.mem_append_left _ hmem),
        fun hmem => hplain (List.mem_append_left _ hmem)⟩
    · rw [dropReturn_of_ne hlast]
      exact ⟨hl, hplain⟩
  rw [← behind_dropReturn] at hclosed
  cases inComment with
  | false => exact worded_scanRest (kept_blank hnone) hdrop.1 hclosed hdrop.2
  | true =>
      have hkept : ScanMode.comment.Kept [] := hnone
      exact worded_scanRest hkept hdrop.1 hclosed hdrop.2

/-- A line that leaves a string open ends in the middle of it. -/
theorem behind_ne_string {r : Region} {rest : Text}
    (h : (Place.string, 0x0A) ∉ places r (l ++ 0x0A :: rest)) : behind r l ≠ .string := by
  intro hstring
  rw [places_newline, hstring] at h
  exact h (List.mem_append_right _ List.mem_cons_self)

theorem Tidy.exists_words (inComment : Bool) {source : Text} (h : Tidy (.ofLine inComment) source) :
    ∃ ws : List Word, lineTokens inComment (splitOn 0x0A source) = ws.flatMap Word.tokens := by
  induction source using lineInduction generalizing inComment with
  | last l hl =>
      obtain ⟨ws, hws⟩ := exists_words_line inComment hl (behind_ne_string h.closed) h.plain
      exact ⟨ws, by rw [splitOn_of_notMem hl, lineTokens, hws, lineTokens, List.append_nil]⟩
  | line l rest hl ih =>
      obtain ⟨hclosed, hplain⟩ := h
      rw [List.append_assoc, List.cons_append] at hclosed
      have hstring := behind_ne_string hclosed
      rw [places_newline, ← (scanLine_blankFrom inComment 0 hl).2] at hclosed hplain
      have hrest : Tidy (.ofLine (scanLine inComment 0 l).2) rest :=
        ⟨fun hmem => hclosed (List.mem_append_right _ (List.mem_cons_of_mem _ hmem)),
          fun hmem => hplain (List.mem_append_right _ (List.mem_cons_of_mem _ hmem))⟩
      obtain ⟨ws, hws⟩ := exists_words_line inComment hl hstring
        fun hmem => hplain (List.mem_append_left _ hmem)
      obtain ⟨ws', hws'⟩ := ih _ hrest
      refine ⟨ws ++ ws', ?_⟩
      rw [splitOn_append_cons, splitOn_of_notMem hl, List.singleton_append, lineTokens, hws, hws',
        List.flatMap_append]

/-! ## Reading what was written -/

/-- What is written is one line. -/
theorem Word.written_ne (w : Word) (hb : b ∈ w.written) : b ≠ 0x0A ∧ b ≠ 0x0D := by
  cases w with
  | run t h =>
      obtain ⟨hblank, -, -, hnewline⟩ := h.plain b hb
      exact ⟨hnewline, by rintro rfl; cases hblank⟩
  | sign t h =>
      have hsign := h.allSigns b hb
      constructor <;> (rintro rfl; cases hsign)
  | string content =>
      rcases List.mem_cons.1 hb with rfl | hb
      · decide
      rcases List.mem_append.1 hb with hb | hb
      · obtain ⟨c, -, hc⟩ := List.mem_flatMap.1 hb
        rcases escapeByte_cases c with ⟨e, he, -, hnewline, hreturn⟩ | ⟨he, -, -, hnewline, hreturn⟩
        · rw [he] at hc
          rcases List.mem_cons.1 hc with rfl | hc
          · decide
          · exact List.mem_singleton.1 hc ▸ ⟨hnewline, hreturn⟩
        · rw [he] at hc
          exact List.mem_singleton.1 hc ▸ ⟨hnewline, hreturn⟩
      · exact List.mem_singleton.1 hb ▸ by decide

theorem mem_join {sep : Text} {parts : List Text} (hb : b ∈ join sep parts) :
    b ∈ sep ∨ ∃ part ∈ parts, b ∈ part := by
  induction parts with
  | nil => cases hb
  | cons part parts ih =>
      cases parts with
      | nil => exact .inr ⟨part, List.mem_cons_self, by rwa [join_singleton] at hb⟩
      | cons next parts =>
          rw [join_cons_cons, List.mem_append, List.mem_append] at hb
          rcases hb with (hb | hb) | hb
          · exact .inr ⟨part, List.mem_cons_self, hb⟩
          · exact .inl hb
          · obtain hsep | ⟨other, hother, hmem⟩ := ih hb
            · exact .inl hsep
            · exact .inr ⟨other, List.mem_cons_of_mem _ hother, hmem⟩

theorem lineTokens_words (ws : List Word) :
    lineTokens false (splitOn 0x0A (join [0x20] (ws.map Word.written))) = ws.flatMap Word.tokens := by
  have hline (b) (hb : b ∈ join [0x20] (ws.map Word.written)) : b ≠ 0x0A ∧ b ≠ 0x0D := by
    obtain hsep | ⟨part, hpart, hmem⟩ := mem_join hb
    · exact List.mem_singleton.1 hsep ▸ by decide
    · obtain ⟨w, -, rfl⟩ := List.mem_map.1 hpart
      exact w.written_ne hmem
  have hreturn : (join [0x20] (ws.map Word.written)).getLast? ≠ some 0x0D := fun hlast =>
    (hline _ (List.mem_of_getLast? hlast)).2 rfl
  rw [splitOn_of_notMem fun hmem => (hline _ hmem).1 rfl]
  simp [lineTokens, scanLine, dropReturn_of_ne hreturn, scanRest_words]

theorem rewrite_tokenize {source : Text} (h : Tidy .code source) :
    (tokenize (rewrite (tokenize source))).map Token.lexeme = (tokenize source).map Token.lexeme := by
  obtain ⟨ws, hws⟩ := h.exists_words false
  have hwritten : rewrite (tokenize source) = join [0x20] (ws.map Word.written) := by
    rw [rewrite, ← spellings_unplaced, map_unplaced_tokenize, hws, spellings_words]
  rw [lexemes_eq source, hws, hwritten, lexemes_eq, lineTokens_words]

/-- Every text is the content of a string. -/
theorem tokenize_stringLiteral (content : Text) :
    (tokenize (stringLiteral content)).map Token.lexeme
      = (.quote, [0x22], -1) :: ((if content = [] then [] else [(.text, content, -1)])
        ++ [(.quote, [0x22], -1)]) := by
  have hwords := lineTokens_words [.string content]
  rw [List.map_singleton, join_singleton, Word.written] at hwords
  rw [lexemes_eq, hwords]
  cases content <;> rfl

/-- Tokens survive being written down: a tidy source has the same tokens once they were written with
single spaces between them, with their kinds, texts and keywords. Every text is the content of a string.
Signs side by side join pairwise from the left, and signs that something keeps apart never do. -/
theorem tokens_survive_rewriting :
    (∀ source, Tidy .code source → (tokenize (rewrite (tokenize source))).map Token.lexeme
      = (tokenize source).map Token.lexeme)
    ∧ (∀ content, (tokenize (stringLiteral content)).map Token.lexeme
      = (.quote, [0x22], -1) :: ((if content = [] then [] else [(.text, content, -1)])
        ++ [(.quote, [0x22], -1)]))
    ∧ (∀ u signs v, RunOfSigns .code u signs v →
      (tokenize (u ++ (signs ++ v))).map Token.lexeme = (tokenize u).map Token.lexeme
        ++ ((paired signs).map Token.lexeme ++ (tokenize v).map Token.lexeme))
    ∧ ∀ u signs gap signs' v, RunOfSigns .code u signs (gap ++ (signs' ++ v)) →
      RunOfSigns .code gap signs' v →
      (tokenize (u ++ (signs ++ (gap ++ (signs' ++ v))))).map Token.lexeme
        = (tokenize u).map Token.lexeme ++ ((paired signs).map Token.lexeme
          ++ ((tokenize gap).map Token.lexeme ++ ((paired signs').map Token.lexeme
            ++ (tokenize v).map Token.lexeme))) := by
  refine ⟨fun _ => rewrite_tokenize, tokenize_stringLiteral, fun _ _ _ => RunOfSigns.lexemes_eq, ?_⟩
  intro u signs gap signs' v h h'
  rw [h.lexemes_eq, h'.lexemes_eq]

/-- A condition with signs side by side, a string with an escaped quote, and a comment. -/
def patchwork : Text := "If(a+++=b==c)x=\"q\\\"\";//\\"

theorem patchwork_survives :
    (tokenize (rewrite (tokenize patchwork))).map Token.lexeme = (tokenize patchwork).map Token.lexeme
    ∧ (tokenize [0x61, 0x2B, 0x2B, 0x2B, 0x3D, 0x62, 0x3D, 0x3D, 0x63]).map Token.lexeme
      = [(.text, [0x61], -1), (.increment, [0x2B, 0x2B], -1), (.plusAssign, [0x2B, 0x3D], -1),
        (.text, [0x62], -1), (.equal, [0x3D, 0x3D], -1), (.text, [0x63], -1)] := by
  obtain ⟨hrewrite, -, -, hsigns⟩ := tokens_survive_rewriting
  have hfirst : RunOfSigns .code [0x61] [0x2B, 0x2B, 0x2B, 0x3D] [0x62, 0x3D, 0x3D, 0x63] :=
    ⟨by decide, by simp [AllSigns, TokenKind.ofSign?],
      ⟨by decide, fun b hb => by cases hb; rfl⟩, by decide, fun b hb => by cases hb; rfl⟩
  have hsecond : RunOfSigns .code [0x62] [0x3D, 0x3D] [0x63] :=
    ⟨by decide, by simp [AllSigns, TokenKind.ofSign?],
      ⟨by decide, fun b hb => by cases hb; rfl⟩, by decide, fun b hb => by cases hb; rfl⟩
  refine ⟨hrewrite patchwork ⟨by decide +kernel, by decide +kernel⟩, ?_⟩
  refine (hsigns _ _ _ _ _ hfirst hsecond).trans ?_
  decide +kernel

end TickScript
