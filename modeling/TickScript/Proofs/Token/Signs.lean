import TickScript.Proofs.Token.Comments

/-!
# Signs side by side

Signs without a gap between them join pairwise from the left: `paired` says into which tokens. Wherever
a run of signs stands in the code of a source, with no sign directly before or behind it, the scanner
makes these tokens of it, and those of what stands before and of what stands behind (`lexemes_between`).
So signs of different runs never join, whatever keeps them apart.

Where a token stands does not matter here. Tokens are therefore compared by kind, text and keyword, and
the scanner is followed with every line numbered zero, where it makes the same tokens
(`map_unplaced_tokenize`).

The cut in front of the signs and that behind them are treated alike. At either one the scanner goes
on as if the text started there, because no sign will join one across the cut (`GoesOn`,
`StartsPlain`), and a run of characters that was begun ends at the first sign. Between the cuts the
signs are paired from the left by the scanner's own rule.
-/

namespace TickScript

open Text

namespace Token

/-- What a token is, apart from where it stands. -/
def lexeme (t : Token) : TokenKind × Text × Int := (t.kind, t.text, t.keywordIndex)

/-- A token without the number of its line. -/
def unplaced (t : Token) : Token := { t with line := 0 }

@[simp] theorem lexeme_unplaced (t : Token) : t.unplaced.lexeme = t.lexeme := rfl

end Token

variable {n : Int} {b : UInt8} {kind : TokenKind} {adjacent : Bool} {mode : ScanMode}
  {tokens base : List Token} {l t u v signs run : Text} {r : Region}

/-! ## Lines without numbers -/

theorem unplaced_classify (n : Int) (run : Text) : (classify n run).unplaced = classify 0 run := by
  simp only [classify]
  split
  · rfl
  · split <;> rfl

theorem map_unplaced_flush (n : Int) (run : Text) (tokens : List Token) :
    (flush n run tokens).map Token.unplaced = flush 0 run (tokens.map Token.unplaced) := by
  simp only [flush]
  split
  · rfl
  · rw [List.map_cons, unplaced_classify]

theorem map_unplaced_addContent (n : Int) (content : Text) (tokens : List Token) :
    (addContent n content tokens).map Token.unplaced
      = addContent 0 content (tokens.map Token.unplaced) := by
  simp only [addContent]
  split <;> rfl

theorem map_unplaced_addSign (n : Int) (b : UInt8) (kind : TokenKind) (adjacent : Bool)
    (tokens : List Token) :
    ((addSign n b kind adjacent tokens).1.map Token.unplaced, (addSign n b kind adjacent tokens).2)
      = addSign 0 b kind adjacent (tokens.map Token.unplaced) := by
  cases adjacent with
  | false => cases tokens <;> rfl
  | true =>
      cases tokens with
      | nil => rfl
      | cons last rest =>
          simp only [addSign, List.map_cons, show last.unplaced.kind = last.kind from rfl]
          cases TokenKind.joined? last.kind kind <;> rfl

theorem map_unplaced_scanRest (n : Int) (mode : ScanMode) (tokens : List Token) (t : Text) :
    ((scanRest n mode tokens t).1.map Token.unplaced, (scanRest n mode tokens t).2)
      = scanRest 0 mode (tokens.map Token.unplaced) t := by
  have hquote : (quoteToken n).unplaced = quoteToken 0 := rfl
  fun_induction scanRest n mode tokens t with
  | case13 run adjacent tokens b t hslashes hstar hquote' hblank kind hkind added ih =>
      have hadded := map_unplaced_addSign n b kind adjacent (flush n run tokens)
      rw [map_unplaced_flush] at hadded
      simp_all [scanRest, ← hadded, added]
  | _ => simp_all [scanRest, map_unplaced_flush, map_unplaced_addContent]

/-- The tokens of some lines, all with the number zero. -/
def lineTokens : (inComment : Bool) → List Text → List Token
  | _, [] => []
  | inComment, l :: lines =>
    (scanLine inComment 0 l).1 ++ lineTokens (scanLine inComment 0 l).2 lines

theorem map_unplaced_scanLine (inComment : Bool) (n : Int) (l : Text) :
    (scanLine inComment n l).1.map Token.unplaced = (scanLine inComment 0 l).1
      ∧ (scanLine inComment n l).2 = (scanLine inComment 0 l).2 := by
  have h := map_unplaced_scanRest n (if inComment then .comment else .code [] false) [] (dropReturn l)
  simp only [List.map_nil] at h
  simp [scanLine, ← h]

theorem map_unplaced_scanLines (inComment : Bool) (lines : List (Int × Text)) :
    (scanLines inComment lines).flatten.map Token.unplaced
      = lineTokens inComment (lines.map Prod.snd) := by
  induction lines generalizing inComment with
  | nil => rfl
  | cons line lines ih =>
      obtain ⟨n, l⟩ := line
      obtain ⟨htokens, hopen⟩ := map_unplaced_scanLine inComment n l
      simp [scanLines, lineTokens, htokens, hopen, ih]

theorem map_unplaced_tokenize (source : Text) :
    (tokenize source).map Token.unplaced = lineTokens false (splitOn 0x0A source) := by
  have hlines : (numberedLines source).map Prod.snd = splitOn 0x0A source := by
    simp [numberedLines, Function.comp_def, List.zipIdx_map_fst]
  rw [tokenize, map_unplaced_scanLines, hlines]

theorem lexemes_eq (source : Text) :
    (tokenize source).map Token.lexeme = (lineTokens false (splitOn 0x0A source)).map Token.lexeme := by
  rw [← map_unplaced_tokenize, List.map_map]
  rfl

/-! ## Tokens before -/

theorem flush_append (n : Int) (run : Text) (tokens base : List Token) :
    flush n run (tokens ++ base) = flush n run tokens ++ base := by
  simp only [flush]
  split <;> rfl

theorem addContent_append (n : Int) (content : Text) (tokens base : List Token) :
    addContent n content (tokens ++ base) = addContent n content tokens ++ base := by
  simp only [addContent]
  split <;> rfl

theorem addSign_append (n : Int) (b : UInt8) (kind : TokenKind) (base : List Token)
    (h : adjacent = true → tokens ≠ []) :
    addSign n b kind adjacent (tokens ++ base)
      = ((addSign n b kind adjacent tokens).1 ++ base, (addSign n b kind adjacent tokens).2) := by
  cases adjacent with
  | false => rfl
  | true =>
      cases tokens with
      | nil => exact absurd rfl (h rfl)
      | cons last rest =>
          simp only [addSign, List.cons_append]
          cases TokenKind.joined? last.kind kind <;> rfl

theorem addSign_ne_nil (n : Int) (b : UInt8) (kind : TokenKind) (adjacent : Bool)
    (tokens : List Token) : (addSign n b kind adjacent tokens).1 ≠ [] := by
  simp only [addSign]
  split
  · split <;> simp
  · simp

/-- Whether the next sign may join the token before it. -/
@[simp] def ScanMode.mayJoin : ScanMode → Bool
  | .code _ adjacent => adjacent
  | _ => false

/-- The tokens before stay as they are, unless a sign joins the last one. -/
theorem scanRest_append (n : Int) (mode : ScanMode) (tokens base : List Token) (t : Text)
    (h : mode.mayJoin = true → tokens ≠ []) :
    scanRest n mode (tokens ++ base) t
      = ((scanRest n mode tokens t).1 ++ base, (scanRest n mode tokens t).2) := by
  fun_induction scanRest n mode tokens t with
  | case13 run adjacent tokens b t hslashes hstar hquote hblank kind hkind added ih =>
      have hflush : adjacent = true → flush n run tokens ≠ [] := fun hadj hnil => by
        refine h hadj ?_
        rw [flush] at hnil
        split at hnil
        · exact hnil
        · cases hnil
      have hne : added.1 ≠ [] := addSign_ne_nil n b kind adjacent _
      have hadded := addSign_append n b kind base hflush
      simp_all [scanRest, flush_append, added]
  | _ => simp_all [scanRest, flush_append, addContent_append]

/-! ## A run of signs -/

/-- The kind of a sign. -/
def signKind (b : UInt8) : TokenKind := (TokenKind.ofSign? b).getD .endOfInput

/-- The tokens of signs without a gap between them: from the left, each two signs that form an
operator are one token. -/
def paired : Text → List Token
  | [] => []
  | [b] => [⟨signKind b, [b], 0, []⟩]
  | b :: c :: t =>
    match TokenKind.joined? (signKind b) (signKind c) with
    | some operator => ⟨operator, [b, c], 0, []⟩ :: paired t
    | none => ⟨signKind b, [b], 0, []⟩ :: paired (c :: t)

/-- All bytes of a text are signs. -/
def AllSigns (t : Text) : Prop := ∀ b ∈ t, (TokenKind.ofSign? b).isSome = true

theorem isBlank_of_sign (h : (TokenKind.ofSign? b).isSome = true) : isBlank b = false := by
  cases hblank : isBlank b with
  | false => rfl
  | true =>
      simp only [isBlank, Bool.or_eq_true, beq_iff_eq, or_assoc] at hblank
      rcases hblank with rfl | rfl | rfl | rfl | rfl <;> cases h

/-- A byte that belongs to the code starts neither a comment nor a string. -/
theorem of_places_code {q : List (Place × UInt8)} (h : places .code (b :: t) = (.code, b) :: q) :
    (∀ s, b = 0x2F → t = 0x2F :: s → False) ∧ (∀ s, b = 0x2F → t = 0x2A :: s → False)
      ∧ b ≠ 0x22 ∧ q = places .code t := by
  generalize hregion : Region.code = r, htext : b :: t = l at h
  fun_cases places r l <;> simp_all [places]

theorem scanRest_sign (hkind : TokenKind.ofSign? b = some kind)
    (h : (places .code (b :: t)).head? = some (.code, b)) :
    scanRest n (.code run adjacent) tokens (b :: t)
      = scanRest n (.code [] (addSign n b kind adjacent (flush n run tokens)).2)
        (addSign n b kind adjacent (flush n run tokens)).1 t := by
  obtain ⟨q, hq⟩ := List.head?_eq_some_iff.1 h
  obtain ⟨hslashes, hstar, hquote, -⟩ := of_places_code hq
  have hblank := isBlank_of_sign (b := b) (by rw [hkind]; rfl)
  simp_all [scanRest]

theorem ofSign?_eq_signKind (h : (TokenKind.ofSign? b).isSome = true) :
    TokenKind.ofSign? b = some (signKind b) := by
  obtain ⟨kind, hkind⟩ := Option.isSome_iff_exists.1 h
  rw [signKind, hkind]
  rfl

/-- A sign that stands alone leaves a token that the next one may join. -/
theorem scanRest_alone (hb : (TokenKind.ofSign? b).isSome = true)
    (hcode : places .code (b :: t) = (.code, b) :: places .code t)
    (halone : addSign n b (signKind b) adjacent tokens = (⟨signKind b, [b], n, []⟩ :: tokens, true)) :
    scanRest n (.code [] adjacent) tokens (b :: t)
      = scanRest n (.code [] true) (⟨signKind b, [b], n, []⟩ :: tokens) t := by
  have hflush : flush n [] tokens = tokens := rfl
  rw [scanRest_sign (ofSign?_eq_signKind hb) (by rw [hcode]; rfl), hflush, halone]

/-- A run of signs becomes the tokens of its pairs, if its first sign stands alone. -/
theorem scanRest_signs (hsigns : AllSigns signs)
    (hcode : places .code (signs ++ t) = signs.map (Place.code, ·) ++ places .code t)
    (halone : ∀ b ∈ signs.head?, addSign 0 b (signKind b) adjacent tokens
      = (⟨signKind b, [b], 0, []⟩ :: tokens, true)) :
    ∃ adjacent', scanRest 0 (.code [] adjacent) tokens (signs ++ t)
      = scanRest 0 (.code [] adjacent') ((paired signs).reverse ++ tokens) t := by
  -- what a run of signs says about its first sign and about the rest
  have hpeel {b : UInt8} {rest : Text} (hsigns : AllSigns (b :: rest))
      (hcode : places .code (b :: rest ++ t) = (b :: rest).map (Place.code, ·) ++ places .code t) :
      (TokenKind.ofSign? b).isSome = true ∧ AllSigns rest
        ∧ places .code (b :: (rest ++ t)) = (.code, b) :: places .code (rest ++ t)
        ∧ places .code (rest ++ t) = rest.map (Place.code, ·) ++ places .code t := by
    have hrest := (of_places_code hcode).2.2.2
    exact ⟨hsigns b List.mem_cons_self, fun c hc => hsigns c (List.mem_cons_of_mem _ hc),
      hcode.trans (congrArg _ hrest), hrest.symm⟩
  -- the signs are taken in the way `paired` takes them, two at a time where two join
  fun_induction paired signs generalizing adjacent tokens with
  | case1 => exact ⟨adjacent, rfl⟩
  | case2 b =>
      obtain ⟨hb, -, hfirst, -⟩ := hpeel hsigns hcode
      exact ⟨true, scanRest_alone hb hfirst (halone b rfl)⟩
  | case3 b c rest operator hjoined ih =>
      obtain ⟨hb, hsigns, hfirst, hcode⟩ := hpeel hsigns hcode
      obtain ⟨hc, hsigns, hsecond, hcode⟩ := hpeel hsigns hcode
      -- behind a joined operator the next sign stands alone
      have hnext (d) (_ : d ∈ rest.head?) :
          addSign 0 d (signKind d) false (⟨operator, [b, c], 0, []⟩ :: tokens)
            = (⟨signKind d, [d], 0, []⟩ :: ⟨operator, [b, c], 0, []⟩ :: tokens, true) := rfl
      obtain ⟨adjacent', hrest⟩ := ih hsigns hcode hnext
      have hflush (tokens : List Token) : flush 0 [] tokens = tokens := rfl
      refine ⟨adjacent', ?_⟩
      rw [List.cons_append, scanRest_alone hb hfirst (halone b rfl), List.cons_append,
        scanRest_sign (ofSign?_eq_signKind hc) (by rw [hsecond]; rfl), hflush]
      simp only [addSign, hjoined]
      rw [List.reverse_cons, List.append_assoc]
      exact hrest
  | case4 b c rest hjoined ih =>
      obtain ⟨hb, hsigns, hfirst, hcode⟩ := hpeel hsigns hcode
      -- the second sign does not join the first, so it starts a token of its own
      have hnext (d) (hd : d ∈ (c :: rest).head?) :
          addSign 0 d (signKind d) true (⟨signKind b, [b], 0, []⟩ :: tokens)
            = (⟨signKind d, [d], 0, []⟩ :: ⟨signKind b, [b], 0, []⟩ :: tokens, true) := by
        obtain rfl : c = d := Option.some.inj hd
        simp only [addSign, hjoined]
      obtain ⟨adjacent', hrest⟩ := ih hsigns hcode hnext
      refine ⟨adjacent', ?_⟩
      rw [List.cons_append, scanRest_alone hb hfirst (halone b rfl), List.reverse_cons,
        List.append_assoc]
      exact hrest

/-! ## Cuts -/

theorem append_ne_cons {c : UInt8} (hne : t ≠ []) (h : ∀ s, t ≠ c :: s) (u s : Text) :
    t ++ u ≠ c :: s := by
  cases t with
  | nil => exact absurd rfl hne
  | cons d t =>
      rintro heq
      exact h t (by rw [(List.cons.inj heq).1])

/-- A text that ends in the code, and not in a sign. -/
structure EndsPlain (r : Region) (t : Text) : Prop where
  inCode : behind r t = .code
  noSign : ∀ b, (places r t).getLast? = some (.code, b) → TokenKind.ofSign? b = none

/-- A text that does not start with a sign. -/
def StartsPlain (t : Text) : Prop :=
  ∀ b, (places .code t).head? = some (.code, b) → TokenKind.ofSign? b = none

/-- Behind a part of a line the scanner goes on with a run of characters that may still grow, but no
sign will join a sign of that part. -/
def GoesOn (n : Int) (mode : ScanMode) (tokens : List Token) (l : Text) : Prop :=
  ∃ run adjacent before,
    (∀ s, scanRest n mode tokens (l ++ s) = scanRest n (.code run adjacent) before s)
      ∧ (adjacent = true → l = [] ∧ mode.mayJoin = true)

theorem GoesOn.of_step {mode' : ScanMode} {tokens' : List Token} (h : GoesOn n mode' tokens' t)
    (hstep : ∀ s, scanRest n mode tokens (l ++ s) = scanRest n mode' tokens' (t ++ s))
    (hjoin : mode'.mayJoin = true → t ≠ []) : GoesOn n mode tokens l := by
  obtain ⟨run, adjacent, before, hs, hadj⟩ := h
  refine ⟨run, adjacent, before, fun s => (hstep s).trans (hs s), fun hadjacent => ?_⟩
  obtain ⟨ht, hmode'⟩ := hadj hadjacent
  exact absurd ht (hjoin hmode')

/-- Where no sign stands directly before the rest, nothing is asked of the rest. -/
theorem GoesOn.of_step_apart {mode' : ScanMode} {tokens' : List Token} (h : GoesOn n mode' tokens' t)
    (hstep : ∀ s, scanRest n mode tokens (l ++ s) = scanRest n mode' tokens' (t ++ s))
    (hapart : mode'.mayJoin = false) : GoesOn n mode tokens l :=
  h.of_step hstep fun hjoin => absurd (hapart.symm.trans hjoin) Bool.false_ne_true

theorem Moves.endsPlain {r' : Region} (h : Moves r l r' t) (hends : EndsPlain r l) : EndsPlain r' t :=
  ⟨h.behind_eq ▸ hends.inCode, fun b hb => hends.noSign b (h.getLast?_places hb)⟩

section

/-! A byte of the code that opens nothing is a blank, a sign or one of a run. -/

variable (hslashes : ∀ s, b = 0x2F → t = 0x2F :: s → False)
  (hstar : ∀ s, b = 0x2F → t = 0x2A :: s → False) (hquote : b ≠ 0x22)
include hslashes hstar hquote

theorem scanRest_blank (hblank : isBlank b = true) :
    scanRest n (.code run adjacent) tokens (b :: t)
      = scanRest n (.code [] false) (flush n run tokens) t := by
  rw [scanRest] <;> first | assumption | exact if_pos hblank

theorem scanRest_addSign (hblank : isBlank b ≠ true) (hkind : TokenKind.ofSign? b = some kind) :
    scanRest n (.code run adjacent) tokens (b :: t)
      = scanRest n (.code [] (addSign n b kind adjacent (flush n run tokens)).2)
        (addSign n b kind adjacent (flush n run tokens)).1 t := by
  rw [scanRest] <;> first | assumption | rw [if_neg hblank, hkind]

theorem scanRest_grow (hblank : isBlank b ≠ true) (hkind : TokenKind.ofSign? b = none) :
    scanRest n (.code run adjacent) tokens (b :: t) = scanRest n (.code (b :: run) false) tokens t := by
  rw [scanRest] <;> first | assumption | rw [if_neg hblank, hkind]

end

theorem scanRest_cut (n : Int) (mode : ScanMode) (tokens : List Token) (hl : 0x0A ∉ l)
    (hends : EndsPlain mode.region l) : GoesOn n mode tokens l := by
  -- a byte that opens nothing in front of the rest opens nothing in front of a longer one
  have hlonger {b c : UInt8} {t : Text} (hne : t ≠ []) (h : ∀ s, b = 0x2F → t = c :: s → False) (u s) :
      b = 0x2F → t ++ u = c :: s → False :=
    fun hb => append_ne_cons hne (fun s => h s hb) u s
  fun_induction scanRest n mode tokens l with
  | case1 run adjacent tokens => exact ⟨run, adjacent, tokens, fun _ => rfl, fun h => ⟨rfl, h⟩⟩
  | case2 tokens => cases hends.inCode
  | case3 content tokens => cases hends.inCode
  | case4 tokens t ih =>
      have hmove := Moves.closeBlock t
      exact (ih (hmove.notMem hl) (hmove.endsPlain hends)).of_step_apart
        (fun s => by simp only [List.cons_append, scanRest]) rfl
  | case5 tokens b t hclose ih =>
      have hmove := Moves.inBlock hclose
      have hne : t ≠ [] := by
        rintro rfl
        cases (hmove.endsPlain hends).inCode
      refine (ih (hmove.notMem hl) (hmove.endsPlain hends)).of_step_apart (fun s => ?_) rfl
      rw [List.cons_append, scanRest]
      exact fun u hb => append_ne_cons hne (fun s => hclose s hb) s u
  | case6 content tokens c t ih =>
      have hmove := Moves.escape t (c := c) (by rintro rfl; simp at hl)
      exact (ih (hmove.notMem hl) (hmove.endsPlain hends)).of_step_apart
        (fun s => by simp only [List.cons_append, scanRest]) rfl
  | case7 content tokens t ih =>
      have hmove := Moves.closeString t
      exact (ih (hmove.notMem hl) (hmove.endsPlain hends)).of_step_apart
        (fun s => by simp only [List.cons_append, scanRest]) rfl
  | case8 content tokens b t hescape hquote ih =>
      have hmove := Moves.inString hescape hquote (by rintro rfl; simp at hl)
      have hne : t ≠ [] := by
        rintro rfl
        cases (hmove.endsPlain hends).inCode
      refine (ih (hmove.notMem hl) (hmove.endsPlain hends)).of_step_apart (fun s => ?_) rfl
      rw [List.cons_append, scanRest]
      · intro c u hb hu
        obtain ⟨d, t, rfl⟩ := List.exists_cons_of_ne_nil hne
        exact hescape d t hb rfl
      · exact hquote
  | case9 run adjacent tokens t =>
      have hmove := Moves.openLine t
      have hcode := (hmove.endsPlain hends).inCode
      rw [(places_inLineComment (hmove.notMem hl)).2] at hcode
      cases hcode
  | case10 run adjacent tokens t ih =>
      have hmove := Moves.openBlock t
      exact (ih (hmove.notMem hl) (hmove.endsPlain hends)).of_step_apart
        (fun s => by simp only [List.cons_append, scanRest]) rfl
  | case11 run adjacent tokens t ih =>
      have hmove := Moves.openString t
      exact (ih (hmove.notMem hl) (hmove.endsPlain hends)).of_step_apart
        (fun s => by simp only [List.cons_append, scanRest]) rfl
  | case12 run adjacent tokens b t hslashes hstar hquote hblank ih =>
      have hmove := Moves.inCode hslashes hstar hquote
      have hb : b ≠ 0x2F := by
        rintro rfl
        cases hblank
      refine (ih (hmove.notMem hl) (hmove.endsPlain hends)).of_step_apart (fun s => ?_) rfl
      rw [List.cons_append, scanRest_blank (fun _ hslash => absurd hslash hb)
        (fun _ hslash => absurd hslash hb) hquote hblank]
  | case13 run adjacent tokens b t hslashes hstar hquote hblank kind hkind added ih =>
      have hmove := Moves.inCode hslashes hstar hquote
      -- the part does not end in a sign
      have hne : t ≠ [] := by
        rintro rfl
        have hlast : (places .code [b]).getLast? = some (.code, b) := by
          rw [places_inCode hslashes hstar hquote]
          rfl
        have hnone := hends.noSign b hlast
        rw [hkind] at hnone
        cases hnone
      refine (ih (hmove.notMem hl) (hmove.endsPlain hends)).of_step (fun s => ?_) (fun _ => hne)
      rw [List.cons_append, scanRest_addSign (hlonger hne hslashes s) (hlonger hne hstar s) hquote
        hblank hkind]
  | case14 run adjacent tokens b t hslashes hstar hquote hblank hkind ih =>
      have hmove := Moves.inCode hslashes hstar hquote
      have hb : b ≠ 0x2F := by
        rintro rfl
        cases hkind
      refine (ih (hmove.notMem hl) (hmove.endsPlain hends)).of_step_apart (fun s => ?_) rfl
      rw [List.cons_append, scanRest_grow (fun _ hslash => absurd hslash hb)
        (fun _ hslash => absurd hslash hb) hquote hblank hkind]

/-- Whether a sign may join the token before does not matter where no sign follows. -/
theorem scanRest_startsPlain (n : Int) (run : Text) (adjacent : Bool) (tokens : List Token)
    (h : StartsPlain t) :
    scanRest n (.code run adjacent) tokens t = scanRest n (.code run false) tokens t := by
  rw [StartsPlain] at h
  generalize hmode : ScanMode.code run adjacent = mode
  fun_cases scanRest n mode tokens t <;> simp_all [scanRest, places]

/-- A carriage return at the end of a line says nothing outside of strings. -/
theorem scanRest_return (n : Int) (mode : ScanMode) (tokens : List Token) (hl : 0x0A ∉ l)
    (h : behind mode.region l ≠ .string) :
    scanRest n mode tokens (l ++ [0x0D]) = scanRest n mode tokens l := by
  have hinert : Inert [0x0D] := by simp [Inert]
  have hblank : isBlank 0x0D = true := rfl
  have hflush (run : Text) (tokens : List Token) :
      flush n [] (flush n run tokens) = flush n run tokens := rfl
  fun_induction scanRest n mode tokens l with
  | case1 run adjacent tokens => simp [scanRest, hblank, hflush]
  | case2 tokens => simp [scanRest]
  | case3 content tokens => exact absurd rfl h
  | case4 tokens t ih => simp_all [behind, scanRest]
  | case5 tokens b t hclose ih =>
      have hclose' (s) (hb : b = 0x2A) := hinert.append_ne (.inl rfl) (fun s => hclose s hb) s
      simp_all [behind, scanRest]
  | case6 content tokens c t ih =>
      have hc : c ≠ 0x0A := by rintro rfl; simp at hl
      simp_all [behind, scanRest]
  | case7 content tokens t ih => simp_all [behind, scanRest]
  | case8 content tokens b t hescape hquote ih =>
      have hnewline : b ≠ 0x0A := by rintro rfl; simp at hl
      by_cases hb : b = 0x5C
      · cases t with
        | nil => subst hb; exact absurd rfl h
        | cons c t => exact (hescape c t hb rfl).elim
      · simp_all [behind, scanRest]
  | case9 run adjacent tokens t => simp [scanRest]
  | case10 run adjacent tokens t ih => simp_all [behind, scanRest]
  | case11 run adjacent tokens t ih => simp_all [behind, scanRest]
  | case12 run adjacent tokens b t hslashes hstar hquote hb ih =>
      obtain ⟨hslashes', hstar'⟩ := hinert.starts_none hslashes hstar
      simp_all [behind, scanRest]
  | case13 run adjacent tokens b t hslashes hstar hquote hb kind hkind added ih =>
      obtain ⟨hslashes', hstar'⟩ := hinert.starts_none hslashes hstar
      simp_all [behind, scanRest, added]
  | case14 run adjacent tokens b t hslashes hstar hquote hb hkind ih =>
      obtain ⟨hslashes', hstar'⟩ := hinert.starts_none hslashes hstar
      simp_all [behind, scanRest]

theorem dropReturn_append (h : t.getLast? ≠ some 0x0D) (u : Text) :
    dropReturn (t ++ u) = t ++ dropReturn u := by
  by_cases hlast : u.getLast? = some 0x0D
  · obtain ⟨front, rfl⟩ := List.getLast?_eq_some_iff.1 hlast
    rw [← List.append_assoc, dropReturn_concat, dropReturn_concat]
  · have hnot : (t ++ u).getLast? ≠ some 0x0D := by
      rw [List.getLast?_append]
      cases hu : u.getLast? with
      | none => simpa using h
      | some c => simpa [hu] using hlast
    rw [dropReturn_of_ne hlast, dropReturn_of_ne hnot]

/-- The first line of a text, as the scanner reads it, and what is behind it. -/
theorem exists_firstLine (v : Text) :
    ∃ first s lines, v = dropReturn first ++ s ∧ Inert s ∧ 0x0A ∉ first
      ∧ ∀ l, 0x0A ∉ l → splitOn 0x0A (l ++ v) = (l ++ first) :: lines := by
  have hdrop (first : Text) : ∃ s, first = dropReturn first ++ s ∧ (s = [] ∨ s = [0x0D]) := by
    by_cases hlast : first.getLast? = some 0x0D
    · obtain ⟨front, rfl⟩ := List.getLast?_eq_some_iff.1 hlast
      exact ⟨[0x0D], by rw [dropReturn_concat], .inr rfl⟩
    · exact ⟨[], by rw [dropReturn_of_ne hlast, List.append_nil], .inl rfl⟩
  by_cases h : 0x0A ∈ v
  · obtain ⟨first, rest, rfl, hfirst⟩ := List.eq_append_cons_of_mem h
    obtain ⟨s, hs, hreturn⟩ := hdrop first
    refine ⟨first, s ++ 0x0A :: rest, splitOn 0x0A rest, ?_, ?_, hfirst, fun l hl => ?_⟩
    · rw [← List.append_assoc, ← hs]
    · rcases hreturn with rfl | rfl <;> simp [Inert]
    · rw [← List.append_assoc, splitOn_append_cons, splitOn_of_notMem (by simp [hl, hfirst])]
      rfl
  · obtain ⟨s, hs, hreturn⟩ := hdrop v
    refine ⟨v, s, [], hs, ?_, h, fun l hl => splitOn_of_notMem (by simp [hl, h])⟩
    rcases hreturn with rfl | rfl <;> simp [Inert]

theorem scanRest_dropReturn (n : Int) (mode : ScanMode) (tokens : List Token) (hl : 0x0A ∉ l)
    (h : behind mode.region l ≠ .string) :
    scanRest n mode tokens (dropReturn l) = scanRest n mode tokens l := by
  by_cases hlast : l.getLast? = some 0x0D
  · obtain ⟨front, rfl⟩ := List.getLast?_eq_some_iff.1 hlast
    rw [dropReturn_concat, scanRest_return n mode tokens (fun hmem => hl (List.mem_append_left _ hmem))]
    rwa [(places_return _ front).2] at h
  · rw [dropReturn_of_ne hlast]

/-! ## Between what stands before and behind -/

/-- Signs that stand side by side in the code, with no sign directly before or behind them. -/
structure RunOfSigns (r : Region) (u signs v : Text) : Prop where
  /-- There is a sign. -/
  nonempty : signs ≠ []
  /-- And nothing else. -/
  allSigns : AllSigns signs
  /-- What stands in front ends in the code, with another byte than a sign. -/
  before : EndsPlain r u
  /-- The signs belong to the code. -/
  inCode : places .code (signs ++ v) = signs.map (Place.code, ·) ++ places .code v
  /-- What follows does not start with a sign. -/
  behind : StartsPlain v

/-- What the signs join does not depend on what stands behind the line that the scanner reads. -/
theorem RunOfSigns.of_inert {s : Text} (hs : Inert s) (h : RunOfSigns r u signs (t ++ s)) :
    RunOfSigns r u signs t where
  nonempty := h.nonempty
  allSigns := h.allSigns
  before := h.before
  inCode := by
    have hcode := h.inCode
    rw [← List.append_assoc, (places_append .code (signs ++ t) hs).1, (places_append .code t hs).1,
      ← List.append_assoc] at hcode
    have hlength (r : Region) (t : Text) : (places r t).length = t.length := by
      conv_rhs => rw [← map_snd_places r t, List.length_map]
    exact (List.append_inj hcode (by simp [hlength])).1
  behind b hb := by
    refine h.behind b ?_
    rw [(places_append .code t hs).1, List.head?_append, hb]
    rfl

theorem RunOfSigns.getLast?_ne_return (h : RunOfSigns r u signs v) :
    (u ++ signs).getLast? ≠ some 0x0D := by
  intro hlast
  rw [List.getLast?_append_of_ne_nil _ h.nonempty] at hlast
  cases h.allSigns _ (List.mem_of_getLast? hlast)

/-- The scanner makes the pairs of a run of signs. -/
theorem RunOfSigns.scanRest_eq (h : RunOfSigns r u signs t) (run : Text) (tokens : List Token) :
    scanRest 0 (.code run false) tokens (signs ++ t)
      = ((scanRest 0 (.code [] false) [] t).1 ++ ((paired signs).reverse ++ flush 0 run tokens),
        (scanRest 0 (.code [] false) [] t).2) := by
  have halone (b) (_ : b ∈ signs.head?) : addSign 0 b (signKind b) false (flush 0 run tokens)
      = (⟨signKind b, [b], 0, []⟩ :: flush 0 run tokens, true) := rfl
  obtain ⟨adjacent, hsigns⟩ := scanRest_signs h.allSigns h.inCode halone
  have hflush : scanRest 0 (.code run false) tokens (signs ++ t)
      = scanRest 0 (.code [] false) (flush 0 run tokens) (signs ++ t) := by
    obtain ⟨b, rest, rfl⟩ := List.exists_cons_of_ne_nil h.nonempty
    have hkind := ofSign?_eq_signKind (h.allSigns b List.mem_cons_self)
    have hplace : (places .code (b :: (rest ++ t))).head? = some (.code, b) := by
      rw [← List.cons_append, h.inCode]
      rfl
    rw [List.cons_append, scanRest_sign hkind hplace, scanRest_sign hkind hplace]
    rfl
  rw [hflush, hsigns, scanRest_startsPlain 0 [] adjacent _ h.behind]
  exact scanRest_append 0 (.code [] false) [] _ t (fun hadj => by cases hadj)

/-- The line in which the signs stand. -/
theorem RunOfSigns.scanLine_eq (inComment : Bool) {first : Text} (hl : 0x0A ∉ l)
    (h : RunOfSigns (.ofLine inComment) l signs (dropReturn first)) :
    scanLine inComment 0 (l ++ (signs ++ first))
      = ((scanLine inComment 0 l).1 ++ (paired signs ++ (scanLine false 0 first).1),
        (scanLine false 0 first).2) := by
  have hmode : ∃ mode, (∀ t, scanLine inComment 0 t = ((scanRest 0 mode [] (dropReturn t)).1.reverse,
      (scanRest 0 mode [] (dropReturn t)).2)) ∧ mode.region = .ofLine inComment
      ∧ mode.mayJoin = false := by
    cases inComment with
    | false => exact ⟨.code [] false, fun _ => rfl, rfl, rfl⟩
    | true => exact ⟨.comment, fun _ => rfl, rfl, rfl⟩
  obtain ⟨mode, hscan, hregion, hjoin⟩ := hmode
  have hends : EndsPlain mode.region l := hregion ▸ h.before
  obtain ⟨run, adjacent, before, hs, hadj⟩ := scanRest_cut 0 mode [] hl hends
  obtain rfl : adjacent = false := by
    cases adjacent with
    | false => rfl
    | true => cases hjoin.symm.trans (hadj rfl).2
  have hbefore : scanRest 0 mode [] (dropReturn l) = (flush 0 run before, false) := by
    rw [scanRest_dropReturn 0 mode [] hl (by rw [hends.inCode]; decide), ← List.append_nil l, hs, scanRest]
  have hline : dropReturn (l ++ (signs ++ first)) = l ++ (signs ++ dropReturn first) := by
    rw [← List.append_assoc, dropReturn_append h.getLast?_ne_return, List.append_assoc]
  have hfirst : scanLine false 0 first = ((scanRest 0 (.code [] false) [] (dropReturn first)).1.reverse,
      (scanRest 0 (.code [] false) [] (dropReturn first)).2) := rfl
  rw [hscan, hscan, hline, hs, h.scanRest_eq, hbefore, hfirst]
  simp

theorem RunOfSigns.lineTokens_eq (inComment : Bool) (h : RunOfSigns (.ofLine inComment) u signs v) :
    lineTokens inComment (splitOn 0x0A (u ++ (signs ++ v)))
      = lineTokens inComment (splitOn 0x0A u) ++ (paired signs ++ lineTokens false (splitOn 0x0A v)) := by
  induction u using lineInduction generalizing inComment with
  | last l hl =>
      obtain ⟨first, s, lines, rfl, hs, hfirst, hsplit⟩ := exists_firstLine v
      have hnewline : 0x0A ∉ l ++ signs := by
        rw [List.mem_append, not_or]
        exact ⟨hl, fun hmem => by cases h.allSigns _ hmem⟩
      have hline := (h.of_inert hs).scanLine_eq inComment hl
      have hbehind := hsplit [] List.not_mem_nil
      rw [List.nil_append, List.nil_append] at hbehind
      rw [← List.append_assoc, hsplit _ hnewline, List.append_assoc, splitOn_of_notMem hl, hbehind]
      simp only [lineTokens, hline, List.append_assoc, List.nil_append]
  | line l rest hl ih =>
      have hnext := (scanLine_blankFrom inComment 0 hl).2
      have hrest : EndsPlain (.ofLine (scanLine inComment 0 l).2) rest := by
        rw [hnext]
        refine ⟨(behind_newline _ l rest).symm.trans h.before.inCode, fun b hb => h.before.noSign b ?_⟩
        rw [places_newline, List.getLast?_append, List.getLast?_cons, hb]
        rfl
      rw [List.append_assoc, List.cons_append, splitOn_append_cons, splitOn_append_cons,
        splitOn_of_notMem hl]
      simp only [List.singleton_append, lineTokens, ih _ { h with before := hrest }, List.append_assoc]

/-- Where a run of signs stands, the tokens of a source are those of what stands before, of the pairs
of the run, and of what stands behind. -/
theorem RunOfSigns.lexemes_eq (h : RunOfSigns .code u signs v) :
    (tokenize (u ++ (signs ++ v))).map Token.lexeme
      = (tokenize u).map Token.lexeme
        ++ ((paired signs).map Token.lexeme ++ (tokenize v).map Token.lexeme) := by
  simp only [TickScript.lexemes_eq, RunOfSigns.lineTokens_eq false h, List.map_append]

end TickScript
