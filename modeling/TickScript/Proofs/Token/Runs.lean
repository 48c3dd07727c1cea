import TickScript.Proofs.Token.Writing

/-!
# Words as tokens

A reader sees an identifier where a run of characters in the code is spelled as the word: a run ends
at a blank, at a sign and with its line. The scanner sees a text token, and knows what is in a string
by the number of quotes before it, since the content of a string is a text token as well.

On a line that has no backslash in its code the two agree. A backslash would be resolved, so that a
run may be spelled otherwise than its token.

The induction follows the scanner with the run that it has read so far (`ScanMode.pending`), which
may have begun before the text at hand. Quotes are counted along the way, because that is how the
scanner tells a word in a string from one in the code: the number of quotes before it is odd.
-/

namespace TickScript

open Text

/-- A byte that a run of characters goes on with. -/
def inRun (b : UInt8) : Bool := !isBlank b && (TokenKind.ofSign? b).isNone

/-- What stands between two texts is not in the middle of bytes of a kind. -/
def Apart (kind : UInt8 → Bool) (before after : Text) : Prop :=
  (∀ b ∈ before.getLast?, kind b = false) ∧ ∀ b ∈ after.head?, kind b = false

/-- A run of characters in the code, spelled as the word, starts at a column of a line that starts in
the given region. -/
def RunAt (r : Region) (word line : Text) (column : Nat) : Prop :=
  ∃ before after, line = before ++ word ++ after ∧ before.length = column
    ∧ behind r before = .code ∧ Apart inRun before after

/-- Such a run is on the line. -/
def HasRun (r : Region) (word line : Text) : Prop := ∃ column, RunAt r word line column

variable {r : Region} {word run u l t : Text} {b : UInt8} {n : Int}

/-! ## Bytes of runs -/

theorem inRun_eq_false_of_sign {kind : TokenKind} (h : TokenKind.ofSign? b = some kind) :
    inRun b = false := by
  simp [inRun, h]

theorem inRun_eq_false_of_blank (h : isBlank b = true) : inRun b = false := by simp [inRun, h]

theorem IsPlain.inRun (h : IsPlain b) : inRun b = true := by simp [TickScript.inRun, h.blank, h.sign]

/-- Nothing starts in front of a byte of a run. -/
theorem behind_inRun (h : inRun b = true) (t : Text) : behind .code (b :: t) = behind .code t := by
  have hslash : b ≠ 0x2F := by rintro rfl; cases h
  have hquote : b ≠ 0x22 := by rintro rfl; cases h
  rw [behind] <;> simp_all

theorem behind_run (h : ∀ b ∈ run, inRun b = true) (t : Text) :
    behind .code (run ++ t) = behind .code t := by
  induction run with
  | nil => rfl
  | cons b run ih =>
      rw [List.cons_append, behind_inRun (h b List.mem_cons_self),
        ih fun c hc => h c (List.mem_cons_of_mem b hc)]

/-! ## Runs on a line -/

theorem hasRun_iff : HasRun r word l ↔ ∃ before after, l = before ++ word ++ after
    ∧ behind r before = .code ∧ Apart inRun before after := by
  constructor
  · rintro ⟨_, before, after, hl, -, hcode, hapart⟩
    exact ⟨before, after, hl, hcode, hapart⟩
  · rintro ⟨before, after, hl, hcode, hapart⟩
    exact ⟨_, before, after, hl, rfl, hcode, hapart⟩

section

variable (hne : word ≠ []) (hword : ∀ b ∈ word, inRun b = true)

include hne

theorem not_hasRun_nil : ¬HasRun r word [] := by
  rw [hasRun_iff]
  rintro ⟨before, after, hl, -⟩
  simp_all

include hword

/-- What the reader passes on its way, from one region to the next, holds no run if no byte of it can
be the first one of a run. -/
theorem hasRun_append {r' : Region} (hbehind : ∀ s, s <+: l → behind r (u ++ s) = behind r' s)
    (hstart : ∀ v c w, u = v ++ c :: w → behind r v = .code → inRun c = false)
    (hend : r' = .code → ∀ b ∈ u.getLast?, inRun b = false) :
    HasRun r word (u ++ l) ↔ HasRun r' word l := by
  rw [hasRun_iff, hasRun_iff]
  constructor
  · rintro ⟨before, after, hl, hcode, hbefore, hafter⟩
    obtain ⟨first, others, rfl⟩ := List.exists_cons_of_ne_nil hne
    rw [List.append_assoc] at hl
    obtain ⟨rest, rfl, hrest⟩ | ⟨rest, hu, hrest⟩ := List.append_eq_append_iff.1 hl
    · rw [← List.append_assoc] at hrest
      refine ⟨rest, after, hrest, ?_, fun b hb => hbefore b ?_, hafter⟩
      · rw [← hbehind rest ⟨first :: others ++ after, by rw [hrest, List.append_assoc]⟩]
        exact hcode
      · rw [List.getLast?_append, Option.mem_def.1 hb]
        rfl
    · cases rest with
      | nil =>
          rw [List.append_nil] at hu
          subst hu
          refine ⟨[], after, by simpa using hrest.symm, ?_, by simp, hafter⟩
          rw [← hbehind [] List.nil_prefix, List.append_nil]
          exact hcode
      | cons c rest =>
          obtain rfl : first = c := (List.cons.inj hrest).1
          have hfirst := hword first List.mem_cons_self
          rw [hstart before first rest hu hcode] at hfirst
          cases hfirst
  · rintro ⟨before, after, rfl, hcode, hbefore, hafter⟩
    refine ⟨u ++ before, after, by simp, ?_, fun b hb => ?_, hafter⟩
    · rw [hbehind before ⟨word ++ after, by simp⟩]
      exact hcode
    · cases before with
      | nil => exact hend hcode b (by simpa using hb)
      | cons c before => exact hbefore b (by simpa [List.getLast?_append] using hb)

theorem hasRun_one {r' : Region} (hbehind : ∀ s, s <+: l → behind r (b :: s) = behind r' s)
    (hb : r = .code ∨ r' = .code → inRun b = false) : HasRun r word (b :: l) ↔ HasRun r' word l := by
  refine hasRun_append hne hword (u := [b]) hbehind (fun v c w hu hcode => ?_) fun hcode => ?_
  · obtain ⟨rfl, hcons⟩ | ⟨v', rfl, hnil⟩ := List.cons_eq_append_iff.1 hu
    · obtain ⟨rfl, -⟩ := List.cons.inj hcons
      exact hb (.inl hcode)
    · simp at hnil
  · simpa using hb (.inr hcode)

theorem hasRun_two {r' : Region} {c : UInt8} (hbehind : ∀ s, behind r (b :: c :: s) = behind r' s)
    (hb : r = .code → inRun b = false) (hc : behind r [b] = .code ∨ r' = .code → inRun c = false) :
    HasRun r word (b :: c :: l) ↔ HasRun r' word l := by
  refine hasRun_append hne hword (u := [b, c]) (fun s _ => hbehind s) (fun v d w hu hcode => ?_)
    fun hcode => ?_
  · obtain ⟨rfl, hcons⟩ | ⟨v', rfl, hrest⟩ := List.cons_eq_append_iff.1 hu
    · obtain ⟨rfl, -⟩ := List.cons.inj hcons
      exact hb hcode
    · obtain ⟨rfl, hcons⟩ | ⟨v'', rfl, hnil⟩ := List.cons_eq_append_iff.1 hrest
      · obtain ⟨rfl, -⟩ := List.cons.inj hcons
        exact hc (.inl hcode)
      · simp at hnil
  · simpa using hc (.inr hcode)

omit hne hword in
theorem not_hasRun_lineComment (h : 0x0A ∉ l) : ¬HasRun .lineComment word l := by
  rw [hasRun_iff]
  rintro ⟨before, after, rfl, hcode, -⟩
  rw [(places_inLineComment (by simp_all)).2] at hcode
  cases hcode

/-- The run in front of a byte that ends it, and the runs behind it. -/
theorem hasRun_run (hrun : ∀ b ∈ run, inRun b = true) (hl : ∀ b ∈ l.head?, inRun b = false) :
    HasRun .code word (run ++ l) ↔ run = word ∨ HasRun .code word l := by
  rw [hasRun_iff, hasRun_iff]
  constructor
  · rintro ⟨before, after, heq, hcode, hbefore, hafter⟩
    rw [List.append_assoc] at heq
    obtain ⟨rest, rfl, hrest⟩ | ⟨rest, hfront, hrest⟩ := List.append_eq_append_iff.1 heq
    · rw [behind_run hrun] at hcode
      exact .inr ⟨rest, after, by rw [hrest, List.append_assoc], hcode,
        fun b hb => hbefore b (by rw [List.getLast?_append, Option.mem_def.1 hb]; rfl), hafter⟩
    · -- a run starts at the first of these bytes or behind them
      have hnone : before = [] := by
        refine List.getLast?_eq_none_iff.1 (Option.eq_none_iff_forall_not_mem.2 fun b hb => ?_)
        have hin := hrun b (hfront ▸ List.mem_append_left _ (List.mem_of_getLast? hb))
        rw [hbefore b hb] at hin
        cases hin
      subst hnone
      obtain rfl : run = rest := by simpa using hfront
      obtain ⟨more, hmore, hend⟩ | ⟨more, hmore, hend⟩ := List.append_eq_append_iff.1 hrest
      · -- the word ends within the run, or with it
        cases more with
        | nil => exact .inl (by rw [hmore, List.append_nil])
        | cons c more =>
            have hin := hrun c (hmore ▸ List.mem_append_right _ List.mem_cons_self)
            rw [hafter c (by rw [hend]; rfl)] at hin
            cases hin
      · cases more with
        | nil => exact .inl (by rw [hmore, List.append_nil])
        | cons c more =>
            have hin := hword c (hmore ▸ List.mem_append_right _ List.mem_cons_self)
            rw [hl c (by rw [hend]; rfl)] at hin
            cases hin
  · rintro (rfl | ⟨before, after, rfl, hcode, hbefore, hafter⟩)
    · exact ⟨[], l, rfl, rfl, by simp, hl⟩
    · refine ⟨run ++ before, after, by simp, by rw [behind_run hrun, hcode], fun b hb => ?_, hafter⟩
      cases before with
      | nil =>
          -- the byte behind the run is the first one of the word
          obtain ⟨first, others, rfl⟩ := List.exists_cons_of_ne_nil hne
          have hin := hword first List.mem_cons_self
          rw [hl first rfl] at hin
          cases hin
      | cons c before => exact hbefore b (by simpa [List.getLast?_append] using hb)

/-- A carriage return at the end of a line is no part of a run. -/
theorem runAt_dropReturn (r : Region) (l : Text) (column : Nat) :
    RunAt r word l column ↔ RunAt r word (dropReturn l) column := by
  by_cases hlast : l.getLast? = some 0x0D
  · obtain ⟨front, rfl⟩ := List.getLast?_eq_some_iff.1 hlast
    rw [dropReturn_concat]
    constructor
    · rintro ⟨before, after, hl, hcolumn, hcode, hbefore, hafter⟩
      obtain hnone | ⟨others, last, rfl⟩ := List.eq_nil_or_concat after
      · -- the last byte of the line would be one of the word
        have hmem : (0x0D : UInt8) ∈ word := by
          rw [hnone, List.append_nil] at hl
          have hword := congrArg List.getLast? hl
          rw [List.getLast?_append, List.getLast?_append_of_ne_nil _ hne] at hword
          exact List.mem_of_getLast? hword.symm
        cases hword _ hmem
      · rw [List.concat_eq_append, ← List.append_assoc] at hl
        obtain ⟨rfl, hlast⟩ := List.append_inj' hl rfl
        refine ⟨before, others, rfl, hcolumn, hcode, hbefore, fun b hb => hafter b ?_⟩
        rw [List.concat_eq_append, List.head?_append, Option.mem_def.1 hb]
        rfl
    · rintro ⟨before, after, rfl, hcolumn, hcode, hbefore, hafter⟩
      refine ⟨before, after ++ [0x0D], by simp, hcolumn, hcode, hbefore, fun b hb => ?_⟩
      cases after with
      | nil =>
          obtain rfl : (0x0D : UInt8) = b := by simpa using hb
          rfl
      | cons c after => exact hafter b (by simpa using hb)
  · rw [dropReturn_of_ne hlast]

end

/-! ## Words among tokens -/

/-- The number of quotes among some tokens. -/
def quoteCount (tokens : List Token) : Nat := tokens.countP (·.kind = .quote)

/-- The quotes that wait for another one. -/
@[simp] def Region.openQuotes : Region → Nat
  | string => 1
  | _ => 0

/-- Among some tokens, last one first, is a text token spelled as the word with an even number of
quotes before it. -/
def HasWord (word : Text) : List Token → Prop
  | [] => False
  | t :: before => (t.kind = .text ∧ t.text = word ∧ quoteCount before % 2 = 0) ∨ HasWord word before

variable {tokens : List Token} {adjacent : Bool}

theorem quoteCount_cons_of_ne {t : Token} (h : t.kind ≠ .quote) :
    quoteCount (t :: tokens) = quoteCount tokens := by
  simp [quoteCount, h]

theorem quoteCount_quoteToken (n : Int) (tokens : List Token) :
    quoteCount (quoteToken n :: tokens) = quoteCount tokens + 1 := by
  simp [quoteCount, quoteToken]

theorem hasWord_cons_of_ne {t : Token} (h : t.kind ≠ .text) :
    HasWord word (t :: tokens) ↔ HasWord word tokens := by
  simp [HasWord, h]

theorem hasWord_iff (word : Text) (tokens : List Token) :
    HasWord word tokens ↔ ∃ after t before, tokens = after ++ t :: before
      ∧ t.kind = .text ∧ t.text = word ∧ quoteCount before % 2 = 0 := by
  induction tokens with
  | nil => simp [HasWord]
  | cons t tokens ih =>
      rw [HasWord, ih]
      constructor
      · rintro (h | ⟨after, found, before, rfl, h⟩)
        · exact ⟨[], t, tokens, rfl, h⟩
        · exact ⟨t :: after, found, before, rfl, h⟩
      · rintro ⟨after, found, before, heq, h⟩
        cases after with
        | nil =>
            obtain ⟨rfl, rfl⟩ := List.cons.inj heq
            exact .inl h
        | cons first after => exact .inr ⟨after, found, before, (List.cons.inj heq).2, h⟩

theorem quoteCount_flush (n : Int) (run : Text) (tokens : List Token) :
    quoteCount (flush n run tokens) = quoteCount tokens := by
  rw [flush]
  split
  · rfl
  · exact quoteCount_cons_of_ne (classify_ne_quote n _)

theorem quoteCount_addContent (n : Int) (content : Text) (tokens : List Token) :
    quoteCount (addContent n content tokens) = quoteCount tokens := by
  rw [addContent]
  split
  · rfl
  · exact quoteCount_cons_of_ne (by simp)

/-- What is in a string is behind a quote that waits for another one. -/
theorem hasWord_addContent (n : Int) (content : Text) (h : quoteCount tokens % 2 = 1) :
    HasWord word (addContent n content tokens) ↔ HasWord word tokens := by
  rw [addContent]
  split
  · rfl
  · simp [HasWord, h]

/-- A run without a backslash becomes the word if it is the word, and no keyword. -/
theorem classify_eq_word (hplain : 0x5C ∉ run) :
    ((classify n run).kind = .text ∧ (classify n run).text = word)
      ↔ (classify 0 word).kind = .text ∧ run = word := by
  have hkind (t : Text) : (classify n t).kind = (classify 0 t).kind := by
    rw [← unplaced_classify n t]
    rfl
  have htext (h : (classify n run).kind = .text) : (classify n run).text = run := by
    have hkeywords : ∀ entry ∈ TokenKind.keywords, entry.2 ≠ .text := by decide
    unfold classify at h ⊢
    split at h
    · cases h
    · next hnumeral =>
        split at h
        · next hfind => exact absurd h (hkeywords _ (List.mem_of_find?_eq_some hfind))
        · next hfind => simp only [if_neg hnumeral, resolveEscapes_of_notMem hplain]
  constructor
  · rintro ⟨h, rfl⟩
    rw [htext h, ← hkind]
    exact ⟨h, rfl⟩
  · rintro ⟨h, rfl⟩
    rw [← hkind] at h
    exact ⟨h, htext h⟩

theorem hasWord_flush (hne : word ≠ []) (hrun : ∀ b ∈ run, IsPlain b)
    (heven : quoteCount tokens % 2 = 0) : HasWord word (flush n run tokens)
      ↔ HasWord word tokens ∨ ((classify 0 word).kind = .text ∧ run.reverse = word) := by
  have hplain : (0x5C : UInt8) ∉ run.reverse := fun h =>
    (hrun _ (List.mem_reverse.1 h)).backslash rfl
  cases run with
  | nil => simp [flush, hne.symm]
  | cons b run =>
      have hflush : flush n (b :: run) tokens = classify n (b :: run).reverse :: tokens := rfl
      rw [hflush, HasWord, ← classify_eq_word (n := n) hplain, or_comm]
      simp [heven]

/-- A sign is neither a quote nor a text, also when it joins another one. -/
theorem addSign_kept (n : Int) (word : Text) (adjacent : Bool) (tokens : List Token)
    {kind : TokenKind} (hkind : TokenKind.ofSign? b = some kind) (hquote : b ≠ 0x22) :
    quoteCount (addSign n b kind adjacent tokens).1 = quoteCount tokens
      ∧ (HasWord word (addSign n b kind adjacent tokens).1 ↔ HasWord word tokens) := by
  have hne : kind ≠ .quote := by
    rintro rfl
    exact hquote (ofSign?_eq_quote hkind)
  have htext : kind ≠ .text := by
    rintro rfl
    simp only [TokenKind.ofSign?] at hkind
    split at hkind <;> cases hkind
  have halone : quoteCount (⟨kind, [b], n, []⟩ :: tokens) = quoteCount tokens
      ∧ (HasWord word (⟨kind, [b], n, []⟩ :: tokens) ↔ HasWord word tokens) :=
    ⟨quoteCount_cons_of_ne hne, hasWord_cons_of_ne htext⟩
  have hjoined : ∀ a c d, TokenKind.joined? a c = some d →
      a ≠ .quote ∧ a ≠ .text ∧ d ≠ .quote ∧ d ≠ .text := by
    intro a c d h
    unfold TokenKind.joined? at h
    split at h <;> cases h <;> decide
  simp only [addSign]
  split
  · next last rest =>
      split
      · next operator hop =>
          obtain ⟨ha, ha', hd, hd'⟩ := hjoined _ _ _ hop
          rw [quoteCount_cons_of_ne ha, hasWord_cons_of_ne ha']
          exact ⟨quoteCount_cons_of_ne hd, hasWord_cons_of_ne hd'⟩
      · exact halone
  · exact halone

/-! ## Words on a line -/

/-- The run that the scanner has read so far. -/
@[simp] def ScanMode.pending : ScanMode → Text
  | .code run _ => run
  | _ => []

/-- A line leaves a quote open where it ends in a string. -/
theorem quoteCount_scanRest (n : Int) (mode : ScanMode) (tokens : List Token) (hl : 0x0A ∉ l)
    (h : quoteCount tokens % 2 = mode.region.openQuotes) :
    quoteCount (scanRest n mode tokens l).1 % 2 = (behind mode.region l).openQuotes := by
  -- only a quote changes the parity, and it opens or closes the string at the same time
  fun_induction scanRest n mode tokens l with
  | case1 run adjacent tokens => simpa [behind, quoteCount_flush] using h
  | case2 tokens => exact h
  | case3 content tokens => simpa [behind, quoteCount_addContent] using h
  | case4 tokens t ih =>
      have hmove := Moves.closeBlock t
      exact hmove.behind_eq ▸ ih (hmove.notMem hl) h
  | case5 tokens b t hclose ih =>
      have hmove := Moves.inBlock hclose
      exact hmove.behind_eq ▸ ih (hmove.notMem hl) h
  | case6 content tokens c t ih =>
      have hmove := Moves.escape t (c := c) (by rintro rfl; simp at hl)
      exact hmove.behind_eq ▸ ih (hmove.notMem hl) h
  | case7 content tokens t ih =>
      have hmove := Moves.closeString t
      -- the closing quote makes the number even
      have hclosed : (quoteCount tokens + 1) % 2 = 0 := by
        simp only [ScanMode.region, Region.openQuotes] at h
        omega
      exact hmove.behind_eq ▸ ih (hmove.notMem hl)
        (by rwa [quoteCount_quoteToken, quoteCount_addContent])
  | case8 content tokens b t hescape hquote ih =>
      have hmove := Moves.inString hescape hquote (by rintro rfl; simp at hl)
      exact hmove.behind_eq ▸ ih (hmove.notMem hl) h
  | case9 run adjacent tokens t =>
      have hmove := Moves.openLine t
      have hcomment := (places_inLineComment (hmove.notMem hl)).2
      rw [ScanMode.region, hmove.behind_eq, hcomment, quoteCount_flush]
      exact h
  | case10 run adjacent tokens t ih =>
      have hmove := Moves.openBlock t
      exact hmove.behind_eq ▸ ih (hmove.notMem hl) (by rwa [quoteCount_flush])
  | case11 run adjacent tokens t ih =>
      have hmove := Moves.openString t
      -- the opening quote makes the number odd
      have hopen : (quoteCount tokens + 1) % 2 = 1 := by
        simp only [ScanMode.region, Region.openQuotes] at h
        omega
      exact hmove.behind_eq ▸ ih (hmove.notMem hl)
        (by rwa [quoteCount_quoteToken, quoteCount_flush])
  | case12 run adjacent tokens b t hslashes hstar hquote hblank ih =>
      have hmove := Moves.inCode hslashes hstar hquote
      exact hmove.behind_eq ▸ ih (hmove.notMem hl) (by rwa [quoteCount_flush])
  | case13 run adjacent tokens b t hslashes hstar hquote hblank kind hkind added ih =>
      have hmove := Moves.inCode hslashes hstar hquote
      have hsign := (addSign_kept n [] adjacent (flush n run tokens) hkind hquote).1
      exact hmove.behind_eq ▸ ih (hmove.notMem hl) (by rwa [hsign, quoteCount_flush])
  | case14 run adjacent tokens b t hslashes hstar hquote hblank hkind ih =>
      have hmove := Moves.inCode hslashes hstar hquote
      exact hmove.behind_eq ▸ ih (hmove.notMem hl) h

theorem ne_cons_of_prefix {s : Text} (h : ∀ x, t = b :: x → False) (hs : s <+: t) :
    ∀ x, s = b :: x → False := by
  rintro x rfl
  obtain ⟨more, rfl⟩ := hs
  exact h (x ++ more) rfl

/-- A byte of the code that opens nothing opens nothing in front of a shorter text. -/
theorem Moves.inCode_prefix (hslashes : ∀ x, b = 0x2F → t = 0x2F :: x → False)
    (hstar : ∀ x, b = 0x2F → t = 0x2A :: x → False) (hquote : b ≠ 0x22) {s : Text} (hs : s <+: t) :
    Moves .code (b :: s) .code s :=
  .inCode (fun x hb => ne_cons_of_prefix (fun x => hslashes x hb) hs x)
    (fun x hb => ne_cons_of_prefix (fun x => hstar x hb) hs x) hquote

/-- What is left of a line becomes a text token spelled as the word exactly if the word is a run of it,
and no keyword. A run that the scanner is in the middle of counts from its start. -/
theorem hasWord_scanRest (hne : word ≠ []) (hword : ∀ b ∈ word, inRun b = true) (n : Int)
    (mode : ScanMode) (tokens : List Token) (hl : 0x0A ∉ l)
    (hquotes : quoteCount tokens % 2 = mode.region.openQuotes)
    (hpending : ∀ b ∈ mode.pending, IsPlain b) (hplain : (Place.code, 0x5C) ∉ places mode.region l) :
    HasWord word (scanRest n mode tokens l).1 ↔ HasWord word tokens
      ∨ ((classify 0 word).kind = .text ∧ HasRun mode.region word (mode.pending.reverse ++ l)) := by
  have hnone (r : Region) := not_hasRun_nil (r := r) hne
  -- what becomes of the run before a byte that ends it, and of what is behind
  have hends {run l : Text} (hrun : ∀ b ∈ run, IsPlain b) (hl : ∀ b ∈ l.head?, inRun b = false)
      {r' : Region} {l' : Text} (hstep : HasRun .code word l ↔ HasRun r' word l') {tokens : List Token}
      (heven : quoteCount tokens % 2 = 0) :
      (HasWord word (flush n run tokens) ∨ (classify 0 word).kind = .text ∧ HasRun r' word l')
        ↔ HasWord word tokens ∨ (classify 0 word).kind = .text ∧ HasRun .code word (run.reverse ++ l) := by
    rw [hasWord_flush hne hrun heven, hasRun_run hne hword
      (fun b hb => (hrun b (List.mem_reverse.1 hb)).inRun) hl, hstep, and_or_left, or_assoc]
  -- in each case `hmove` is the step of the regions and `hstep` what it does to the runs of `word`
  fun_induction scanRest n mode tokens l with
  | case1 run adjacent tokens =>
      have hlast := hends (l := []) hpending (by simp) Iff.rfl hquotes
      rw [List.append_nil] at hlast
      simpa [hnone] using hlast
  | case2 tokens => simp [hnone]
  -- an open string at the end of the line: its content is behind a quote, and so no word
  | case3 content tokens => simpa [hnone] using hasWord_addContent n content hquotes
  | case4 tokens t ih =>
      have hmove := Moves.closeBlock t
      have hstep : HasRun .blockComment word (0x2A :: 0x2F :: t) ↔ HasRun .code word t :=
        hasRun_two hne hword (fun s => (Moves.closeBlock s).behind_eq) (by simp) fun _ => rfl
      have hrest := ih (hmove.notMem hl) hquotes (by simp) (hmove.notMem_places hplain)
      exact hrest.trans (or_congr_right (and_congr_right fun _ => hstep.symm))
  | case5 tokens b t hclose ih =>
      have hmove := Moves.inBlock hclose
      have hstep : HasRun .blockComment word (b :: t) ↔ HasRun .blockComment word t :=
        hasRun_one hne hword (fun s hs => (Moves.inBlock fun x hb =>
          ne_cons_of_prefix (fun x => hclose x hb) hs x).behind_eq) (by simp)
      have hrest := ih (hmove.notMem hl) hquotes (by simp) (hmove.notMem_places hplain)
      exact hrest.trans (or_congr_right (and_congr_right fun _ => hstep.symm))
  | case6 content tokens c t ih =>
      have hc : c ≠ 0x0A := by rintro rfl; simp at hl
      have hmove := Moves.escape t hc
      have hstep : HasRun .string word (0x5C :: c :: t) ↔ HasRun .string word t :=
        hasRun_two hne hword (fun s => (Moves.escape s hc).behind_eq) (by simp) (by simp [behind])
      have hrest := ih (hmove.notMem hl) hquotes (by simp) (hmove.notMem_places hplain)
      exact hrest.trans (or_congr_right (and_congr_right fun _ => hstep.symm))
  | case7 content tokens t ih =>
      have hmove := Moves.closeString t
      have hstep : HasRun .string word (0x22 :: t) ↔ HasRun .code word t :=
        hasRun_one hne hword (fun s _ => (Moves.closeString s).behind_eq) fun _ => rfl
      have hodd : quoteCount tokens % 2 = 1 := hquotes
      have hclosed : quoteCount (quoteToken n :: addContent n content tokens) % 2 = 0 := by
        rw [quoteCount_quoteToken, quoteCount_addContent]
        omega
      -- neither the content of the string nor its quote is the word
      have hcontent : HasWord word (quoteToken n :: addContent n content tokens)
          ↔ HasWord word tokens := by
        rw [hasWord_cons_of_ne (by simp [quoteToken]), hasWord_addContent n content hodd]
      have hrest := ih (hmove.notMem hl) hclosed (by simp) (hmove.notMem_places hplain)
      exact hrest.trans (or_congr hcontent (and_congr_right fun _ => hstep.symm))
  | case8 content tokens b t hescape hquote ih =>
      have hnewline : b ≠ 0x0A := by rintro rfl; simp at hl
      have hmove := Moves.inString hescape hquote hnewline
      have hstep : HasRun .string word (b :: t) ↔ HasRun .string word t := by
        refine hasRun_one hne hword (fun s hs => (Moves.inString ?_ hquote hnewline).behind_eq) (by simp)
        intro c x hb
        exact ne_cons_of_prefix (fun x => hescape c x hb) hs x
      have hrest := ih (hmove.notMem hl) hquotes (by simp) (hmove.notMem_places hplain)
      exact hrest.trans (or_congr_right (and_congr_right fun _ => hstep.symm))
  | case9 run adjacent tokens t =>
      have hmove := Moves.openLine t
      have hstep : HasRun .code word (0x2F :: 0x2F :: t) ↔ HasRun .lineComment word t :=
        hasRun_two hne hword (fun s => (Moves.openLine s).behind_eq) (fun _ => rfl) fun _ => rfl
      -- nothing behind the two slashes is a run of code
      have hcomment : ¬HasRun .lineComment word t := not_hasRun_lineComment (hmove.notMem hl)
      have hlast := hends hpending (by simp; rfl) hstep hquotes
      rwa [or_iff_left (fun h => hcomment h.2)] at hlast
  | case10 run adjacent tokens t ih =>
      have hmove := Moves.openBlock t
      have hstep : HasRun .code word (0x2F :: 0x2A :: t) ↔ HasRun .blockComment word t :=
        hasRun_two hne hword (fun s => (Moves.openBlock s).behind_eq) (fun _ => rfl) fun _ => rfl
      have heven : quoteCount (flush n run tokens) % 2 = 0 := by rwa [quoteCount_flush]
      refine (ih (hmove.notMem hl) heven (by simp) (hmove.notMem_places hplain)).trans ?_
      exact hends hpending (by simp; rfl) hstep hquotes
  | case11 run adjacent tokens t ih =>
      have hmove := Moves.openString t
      have hstep : HasRun .code word (0x22 :: t) ↔ HasRun .string word t :=
        hasRun_one hne hword (fun s _ => (Moves.openString s).behind_eq) fun _ => rfl
      have heven : quoteCount tokens % 2 = 0 := hquotes
      -- from here on the number of quotes is odd, as the mode wants it
      have hopen : quoteCount (quoteToken n :: flush n run tokens) % 2 = 1 := by
        rw [quoteCount_quoteToken, quoteCount_flush]
        omega
      refine (ih (hmove.notMem hl) hopen (by simp) (hmove.notMem_places hplain)).trans ?_
      rw [hasWord_cons_of_ne (by simp [quoteToken])]
      exact hends hpending (by simp; rfl) hstep heven
  | case12 run adjacent tokens b t hslashes hstar hquote hblank ih =>
      have hmove := Moves.inCode hslashes hstar hquote
      have hb : inRun b = false := inRun_eq_false_of_blank hblank
      have hstep : HasRun .code word (b :: t) ↔ HasRun .code word t :=
        hasRun_one hne hword (fun s hs => (Moves.inCode_prefix hslashes hstar hquote hs).behind_eq)
          fun _ => hb
      have heven : quoteCount (flush n run tokens) % 2 = 0 := by rwa [quoteCount_flush]
      refine (ih (hmove.notMem hl) heven (by simp) (hmove.notMem_places hplain)).trans ?_
      exact hends hpending (by simpa using hb) hstep hquotes
  | case13 run adjacent tokens b t hslashes hstar hquote hblank kind hkind added ih =>
      have hmove := Moves.inCode hslashes hstar hquote
      have hb : inRun b = false := inRun_eq_false_of_sign hkind
      have hstep : HasRun .code word (b :: t) ↔ HasRun .code word t :=
        hasRun_one hne hword (fun s hs => (Moves.inCode_prefix hslashes hstar hquote hs).behind_eq)
          fun _ => hb
      -- a sign is no quote and not the word, whether it joins the one before it or not
      obtain ⟨hcount, hadded⟩ := addSign_kept n word adjacent (flush n run tokens) hkind hquote
      have heven : quoteCount (addSign n b kind adjacent (flush n run tokens)).1 % 2 = 0 := by
        rwa [hcount, quoteCount_flush]
      refine (ih (hmove.notMem hl) heven (by simp) (hmove.notMem_places hplain)).trans ?_
      rw [hadded]
      exact hends hpending (by simpa using hb) hstep hquotes
  | case14 run adjacent tokens b t hslashes hstar hquote hblank hkind ih =>
      have hmove := Moves.inCode hslashes hstar hquote
      have hbackslash : b ≠ 0x5C := by
        rintro rfl
        rw [ScanMode.region, places_inCode hslashes hstar hquote] at hplain
        exact hplain List.mem_cons_self
      have hb : IsPlain b := ⟨by simpa using hblank, hkind, hbackslash, by rintro rfl; simp at hl⟩
      -- the byte extends the run, which is not yet a token
      have hpending' : ∀ c ∈ b :: run, IsPlain c := List.forall_mem_cons.2 ⟨hb, hpending⟩
      have hrest := ih (hmove.notMem hl) hquotes hpending' (hmove.notMem_places hplain)
      rwa [ScanMode.pending, List.reverse_cons, List.append_assoc] at hrest

theorem notMem_dropReturn (hl : b ∉ l) : b ∉ dropReturn l := by
  rw [dropReturn]
  split
  · exact fun hmem => hl (List.dropLast_subset l hmem)
  · exact hl

theorem places_dropReturn {p : Place × UInt8} (h : p ∉ places r l) : p ∉ places r (dropReturn l) := by
  by_cases hlast : l.getLast? = some 0x0D
  · obtain ⟨front, rfl⟩ := List.getLast?_eq_some_iff.1 hlast
    rw [dropReturn_concat]
    rw [(places_return r front).1] at h
    exact fun hmem => h (List.mem_append_left _ hmem)
  · rwa [dropReturn_of_ne hlast]

theorem quoteCount_scanLine (inComment : Bool) (n : Int) (hl : 0x0A ∉ l) :
    quoteCount (scanLine inComment n l).1 % 2 = (behind (.ofLine inComment) l).openQuotes := by
  have hcount : ∀ tokens, quoteCount (List.reverse tokens) = quoteCount tokens := fun tokens => by
    simp [quoteCount]
  rw [← behind_dropReturn]
  cases inComment with
  | false =>
      have h := quoteCount_scanRest n (.code [] false) [] (notMem_dropReturn hl) rfl
      simpa [scanLine, hcount, Region.ofLine] using h
  | true =>
      have h := quoteCount_scanRest n .comment [] (notMem_dropReturn hl) rfl
      simpa [scanLine, hcount, Region.ofLine] using h

/-- On a line without a backslash in its code, the runs are the words. -/
theorem hasWord_scanLine (hne : word ≠ []) (hword : ∀ b ∈ word, inRun b = true) (inComment : Bool)
    (n : Int) (hl : 0x0A ∉ l) (hplain : (Place.code, 0x5C) ∉ places (.ofLine inComment) l) :
    HasWord word (scanLine inComment n l).1.reverse
      ↔ (classify 0 word).kind = .text ∧ HasRun (.ofLine inComment) word l := by
  have hreturn : HasRun (.ofLine inComment) word l ↔ HasRun (.ofLine inComment) word (dropReturn l) :=
    exists_congr fun column => runAt_dropReturn hne hword (.ofLine inComment) l column
  rw [hreturn]
  cases inComment with
  | false =>
      have h := hasWord_scanRest hne hword n (.code [] false) [] (notMem_dropReturn hl) rfl
        (by simp) (places_dropReturn hplain)
      simpa [scanLine, HasWord, Region.ofLine] using h
  | true =>
      have h := hasWord_scanRest hne hword n .comment [] (notMem_dropReturn hl) rfl
        (by simp) (places_dropReturn hplain)
      simpa [scanLine, HasWord, Region.ofLine] using h

end TickScript
