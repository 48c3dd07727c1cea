import TickScript.Proofs.Token.Places

/-!
# Comments are blanks

`withoutComments` replaces each comment of a source by a space and keeps the ends of lines.
`tokenize_withoutComments` says that the scanner finds the same tokens with and without comments, on
the same lines.

The scanner works on one line at a time and carries one bit to the next line. The argument does the
same: `scanRest_blankFrom` is about what is left of a line, `scanLine_blankFrom` about a line, and
`scanLines_blankLines` about the lines from one line on.

In the middle of a line the scanner has a mode, and the same text is read with its comments from one
mode and without them from another, that of a reader who has seen no comment
(`ScanMode.uncommented`). The induction is on the text. The cases where something has to be shown
are those of two bytes which might come to start a comment only because one between them was taken
out; a comment leaves a space, so that does not happen (`blankFrom_ne`).
-/

namespace TickScript

open Text

/-! ## Taking comments out -/

/-- What stays of a byte when comments are taken out. -/
def blanked : Place × UInt8 → Text
  | (.opening, _) => [0x20]
  | (.comment, b) => if b = 0x0A then [0x0A] else []
  | (_, b) => [b]

/-- A text, read from the middle of something, with each comment replaced by a space. -/
def blankFrom (r : Region) (t : Text) : Text := (places r t).flatMap blanked

/-- A source with each comment replaced by a space; the ends of lines stay. -/
def withoutComments (source : Text) : Text := blankFrom .code source

variable {r : Region} {t l rest : Text} {b : UInt8}

theorem blankFrom_newline (r : Region) (l rest : Text) :
    blankFrom r (l ++ 0x0A :: rest) = blankFrom r l ++ 0x0A :: blankFrom (behind r l).nextLine rest := by
  rw [blankFrom, places_newline, List.flatMap_append, List.flatMap_cons]
  cases behind r l <;> rfl

theorem mem_of_mem_blankFrom (h : b ∈ blankFrom r t) : b = 0x20 ∨ b ∈ t := by
  obtain ⟨⟨place, c⟩, hmem, hb⟩ := List.mem_flatMap.1 h
  have hc : c ∈ t := by
    rw [← map_snd_places r t]
    exact List.mem_map.2 ⟨_, hmem, rfl⟩
  cases place <;> simp only [blanked] at hb
  case opening => exact .inl (List.mem_singleton.1 hb)
  case comment =>
    split at hb
    · next hnewline => exact .inr (List.mem_singleton.1 hb ▸ hnewline ▸ hc)
    · cases hb
  case code | string => exact .inr (List.mem_singleton.1 hb ▸ hc)

/-- Only comments leave nothing. -/
theorem eq_nil_of_blankFrom (hr : r.place ≠ .comment) (h : blankFrom r t = []) : t = [] := by
  rw [blankFrom] at h
  fun_cases places r t <;> simp_all [places, blanked, Region.place]

theorem getLast?_blanked_comment (b : UInt8) : (blanked (.comment, b)).getLast? ≠ some 0x0D := by
  simp only [blanked]
  split <;> simp

theorem getLast?_of_step (read kept : Text) {r' : Region}
    (ih : (blankFrom r' t).getLast? = some 0x0D →
      t.getLast? = some 0x0D ∧ (behind r' t).place ≠ .comment)
    (hkept : kept.getLast? = some 0x0D → read.getLast? = some 0x0D ∧ r'.place ≠ .comment)
    (h : (kept ++ blankFrom r' t).getLast? = some 0x0D) :
    (read ++ t).getLast? = some 0x0D ∧ (behind r' t).place ≠ .comment := by
  rw [List.getLast?_append] at h
  cases hlast : (blankFrom r' t).getLast? with
  | some c =>
      rw [hlast] at h
      obtain ⟨ht, hbehind⟩ := ih (hlast.trans h)
      exact ⟨by simp [List.getLast?_append, ht], hbehind⟩
  | none =>
      rw [hlast] at h
      obtain ⟨hread, hr'⟩ := hkept h
      obtain rfl := eq_nil_of_blankFrom hr' (List.getLast?_eq_none_iff.1 hlast)
      exact ⟨by simpa using hread, hr'⟩

/-- A carriage return at the end was one before, outside of comments. -/
theorem getLast?_of_blankFrom (h : (blankFrom r t).getLast? = some 0x0D) :
    t.getLast? = some 0x0D ∧ (behind r t).place ≠ .comment := by
  -- each step writes a fixed piece, and the last byte is in it or behind it
  fun_induction places r t with
  | case1 r => cases h
  | case2 t ih =>
      simpa [behind] using getLast?_of_step [0x2F, 0x2F] [0x20] ih (by simp)
        (by simpa [blankFrom, places, blanked] using h)
  | case3 t ih =>
      simpa [behind] using getLast?_of_step [0x2F, 0x2A] [0x20] ih (by simp)
        (by simpa [blankFrom, places, blanked] using h)
  | case4 t ih =>
      simpa [behind] using getLast?_of_step [0x22] [0x22] ih (fun hb => ⟨hb, by decide⟩)
        (by simpa [blankFrom, places, blanked] using h)
  | case5 b t hslashes hstar hquote ih =>
      simpa [behind, *] using getLast?_of_step [b] [b] ih (fun hb => ⟨hb, by decide⟩)
        (by simpa [blankFrom, places, blanked, *] using h)
  | case6 t ih =>
      simpa [behind] using getLast?_of_step [0x22] [0x22] ih (fun hb => ⟨hb, by decide⟩)
        (by simpa [blankFrom, places, blanked] using h)
  | case7 t ih =>
      simpa [behind] using getLast?_of_step [0x0A] [0x0A] ih (fun hb => ⟨hb, by decide⟩)
        (by simpa [blankFrom, places, blanked] using h)
  | case8 t ih =>
      simpa [behind] using getLast?_of_step [0x5C, 0x0A] [0x5C, 0x0A] ih (fun hb => ⟨hb, by decide⟩)
        (by simpa [blankFrom, places, blanked] using h)
  | case9 c t hc ih =>
      simpa [behind, *] using getLast?_of_step [0x5C, c] [0x5C, c] ih (fun hb => ⟨hb, by decide⟩)
        (by simpa [blankFrom, places, blanked, *] using h)
  | case10 b t hquote hnewline hbroken hescape ih =>
      simpa [behind, *] using getLast?_of_step [b] [b] ih (fun hb => ⟨hb, by decide⟩)
        (by simpa [blankFrom, places, blanked, *] using h)
  | case11 t ih =>
      simpa [behind] using getLast?_of_step [0x0A] [0x0A] ih (fun hb => ⟨hb, by decide⟩)
        (by simpa [blankFrom, places, blanked] using h)
  | case12 b t hnewline ih =>
      -- a byte of a comment leaves no carriage return behind
      have hstep : blankFrom .lineComment (b :: t)
          = blanked (.comment, b) ++ blankFrom .lineComment t := by
        simp [blankFrom, places]
      rw [hstep] at h
      simpa [behind, hnewline] using getLast?_of_step [b] _ ih
        (fun hb => (getLast?_blanked_comment b hb).elim) h
  | case13 t ih =>
      simpa [behind] using getLast?_of_step [0x2A, 0x2F] [] ih (by simp)
        (by simpa [blankFrom, places, blanked] using h)
  | case14 b t hclose ih =>
      -- nor does one of a block comment
      have hstep : blankFrom .blockComment (b :: t)
          = blanked (.comment, b) ++ blankFrom .blockComment t := by
        simp [blankFrom, places]
      rw [hstep] at h
      simpa [behind, hclose] using getLast?_of_step [b] _ ih
        (fun hb => (getLast?_blanked_comment b hb).elim) h

/-- Whether a line ends in a carriage return does not depend on its comments. -/
theorem dropReturn_blankFrom (r : Region) (l : Text) :
    dropReturn (blankFrom r l) = blankFrom r (dropReturn l) := by
  by_cases hlast : l.getLast? = some 0x0D
  · obtain ⟨front, rfl⟩ := List.getLast?_eq_some_iff.1 hlast
    rw [dropReturn_concat, blankFrom, (places_return r front).1, List.flatMap_append]
    by_cases hplace : (behind r front).place = .comment
    · -- the carriage return goes with its comment, and none comes to the end
      have hfront : (blankFrom r front).getLast? ≠ some 0x0D := fun h => (getLast?_of_blankFrom h).2 hplace
      rw [hplace]
      simpa [blankFrom, blanked] using dropReturn_of_ne hfront
    · have hkept : [((behind r front).place, (0x0D : UInt8))].flatMap blanked = [0x0D] := by
        revert hplace
        cases behind r front <;> simp [Region.place, blanked]
      rw [hkept]
      exact dropReturn_concat _
  · rw [dropReturn_of_ne hlast, dropReturn_of_ne fun h => hlast (getLast?_of_blankFrom h).1]

/-! ## What is left of a line -/

theorem blankFrom_lineComment (h : 0x0A ∉ t) : blankFrom .lineComment t = [] := by
  rw [blankFrom, (places_inLineComment h).1, List.flatMap_map]
  refine List.flatMap_eq_nil_iff.2 fun b hb => ?_
  exact if_neg fun (hnewline : b = 0x0A) => h (hnewline ▸ hb)

theorem head?_blankFrom (hr : r.place ≠ .comment) (t : Text) :
    (blankFrom r t).head? = some 0x20 ∨ (blankFrom r t).head? = t.head? := by
  rw [blankFrom]
  fun_cases places r t <;> simp_all [blanked, Region.place]

/-- Taking comments out brings no two bytes together that start a comment. -/
theorem blankFrom_ne {c : UInt8} (hc : c ≠ 0x20) (h : ∀ s, t ≠ c :: s) (s : Text) :
    blankFrom .code t ≠ c :: s := by
  intro heq
  have hhead := head?_blankFrom (r := .code) (by decide) t
  rw [heq] at hhead
  rcases hhead with hspace | hsame
  · exact hc (Option.some.inj hspace)
  · obtain ⟨s', hs'⟩ := List.head?_eq_some_iff.1 hsame.symm
    exact h s' hs'

theorem blankFrom_code (hslashes : ∀ s, b = 0x2F → t = 0x2F :: s → False)
    (hstar : ∀ s, b = 0x2F → t = 0x2A :: s → False) (hquote : b ≠ 0x22) :
    blankFrom .code (b :: t) = b :: blankFrom .code t ∧ behind .code (b :: t) = behind .code t
      ∧ (∀ s, b = 0x2F → blankFrom .code t ≠ 0x2F :: s)
      ∧ ∀ s, b = 0x2F → blankFrom .code t ≠ 0x2A :: s :=
  ⟨by simp_all [blankFrom, places, blanked], by simp_all [behind],
    fun s hb => blankFrom_ne (by decide) (fun s => hslashes s hb) s,
    fun s hb => blankFrom_ne (by decide) (fun s => hstar s hb) s⟩

/-- Where the scanner stands when there are no comments. -/
@[simp] def ScanMode.uncommented : ScanMode → ScanMode
  | .comment => .code [] false
  | mode => mode

/-- The scanner reads a text without comments as it reads the text itself. -/
theorem scanRest_blankFrom (n : Int) (mode : ScanMode) (tokens : List Token) (h : 0x0A ∉ l) :
    scanRest n mode.uncommented tokens (blankFrom mode.region l) = ((scanRest n mode tokens l).1, false)
      ∧ Region.ofLine (scanRest n mode tokens l).2 = (behind mode.region l).nextLine := by
  have hspace : isBlank 0x20 = true := rfl
  -- outside comments both scanners take the same step; a comment becomes a blank
  fun_induction scanRest n mode tokens l with
  | case1 run adjacent tokens => exact ⟨rfl, rfl⟩
  | case2 tokens => exact ⟨rfl, rfl⟩
  | case3 content tokens => exact ⟨rfl, rfl⟩
  | case4 tokens t ih =>
      simp_all [blankFrom, places, behind, blanked]
  | case5 tokens b t hclose ih =>
      obtain ⟨hb, ht⟩ := not_or.1 (mt List.mem_cons.2 h)
      simp_all [blankFrom, places, behind, blanked, Ne.symm hb]
  | case6 content tokens c t ih =>
      have hc : c ≠ 0x0A := by rintro rfl; simp at h
      simp_all [blankFrom, places, behind, blanked, scanRest]
  | case7 content tokens t ih =>
      simp_all [blankFrom, places, behind, blanked, scanRest]
  | case8 content tokens b t hescape hquote ih =>
      have hnewline : b ≠ 0x0A := by rintro rfl; simp at h
      by_cases hb : b = 0x5C
      · -- a backslash that takes nothing along stands at the end
        cases t with
        | nil => subst hb; exact ⟨rfl, rfl⟩
        | cons c t => exact (hescape c t hb rfl).elim
      · simp_all [blankFrom, places, behind, blanked, scanRest]
  | case9 run adjacent tokens t =>
      have ht : 0x0A ∉ t := by simpa using h
      have hblank : blankFrom .code (0x2F :: 0x2F :: t) = [0x20] := by
        simpa [blankFrom, places, blanked] using blankFrom_lineComment ht
      simp [hblank, hspace, scanRest, flush, behind, (places_inLineComment ht).2, Region.ofLine,
        Region.nextLine]
  | case10 run adjacent tokens t ih =>
      simp_all [blankFrom, places, behind, blanked, scanRest]
  | case11 run adjacent tokens t ih =>
      simp_all [blankFrom, places, behind, blanked, scanRest]
  | case12 run adjacent tokens b t hslashes hstar hquote hblank ih =>
      obtain ⟨hcode, hbehind, hslashes', hstar'⟩ := blankFrom_code hslashes hstar hquote
      simp_all [scanRest]
  | case13 run adjacent tokens b t hslashes hstar hquote hblank kind hkind added ih =>
      obtain ⟨hcode, hbehind, hslashes', hstar'⟩ := blankFrom_code hslashes hstar hquote
      simp_all [scanRest, added]
  | case14 run adjacent tokens b t hslashes hstar hquote hblank hkind ih =>
      obtain ⟨hcode, hbehind, hslashes', hstar'⟩ := blankFrom_code hslashes hstar hquote
      simp_all [scanRest]

/-! ## Lines -/

/-- The lines from some line on, with each comment replaced by a space. -/
def blankLines : Region → List Text → List Text
  | _, [] => []
  | r, l :: lines => blankFrom r l :: blankLines (behind r l).nextLine lines

theorem splitOn_blankFrom (r : Region) (source : Text) :
    splitOn 0x0A (blankFrom r source) = blankLines r (splitOn 0x0A source) := by
  induction source using lineInduction generalizing r with
  | last l hl =>
      have hblank : 0x0A ∉ blankFrom r l := fun hmem =>
        (mem_of_mem_blankFrom hmem).elim (by decide) hl
      rw [splitOn_of_notMem hl, splitOn_of_notMem hblank, blankLines, blankLines]
  | line l rest hl ih =>
      have hblank : 0x0A ∉ blankFrom r l := fun hmem =>
        (mem_of_mem_blankFrom hmem).elim (by decide) hl
      rw [blankFrom_newline, splitOn_append_cons, splitOn_append_cons, splitOn_of_notMem hl,
        splitOn_of_notMem hblank, ih]
      rfl

theorem scanLine_blankFrom (inComment : Bool) (n : Int) (h : 0x0A ∉ l) :
    scanLine false n (blankFrom (.ofLine inComment) l) = ((scanLine inComment n l).1, false)
      ∧ Region.ofLine (scanLine inComment n l).2 = (behind (.ofLine inComment) l).nextLine := by
  have hdrop : 0x0A ∉ dropReturn l := by
    rw [dropReturn]
    split
    · exact fun hmem => h (List.dropLast_subset l hmem)
    · exact h
  cases inComment with
  | false =>
      have hrest := scanRest_blankFrom n (.code [] false) [] hdrop
      rw [behind_dropReturn] at hrest
      simp_all [scanLine, dropReturn_blankFrom, Region.ofLine]
  | true =>
      have hrest := scanRest_blankFrom n .comment [] hdrop
      rw [behind_dropReturn] at hrest
      simp_all [scanLine, dropReturn_blankFrom, Region.ofLine]

theorem scanLines_blankLines (inComment : Bool) (lines : List Text) (k : Nat)
    (h : ∀ l ∈ lines, 0x0A ∉ l) :
    scanLines false (((blankLines (.ofLine inComment) lines).zipIdx k).map
        fun (line, index) => ((index : Int) + 1, line))
      = scanLines inComment ((lines.zipIdx k).map fun (line, index) => ((index : Int) + 1, line)) := by
  induction lines generalizing inComment k with
  | nil => rfl
  | cons l lines ih =>
      obtain ⟨hline, hnext⟩ := scanLine_blankFrom inComment ((k : Int) + 1) (h l List.mem_cons_self)
      have hrest := ih (scanLine inComment (k + 1) l).2 (k + 1) fun l hl =>
        h l (List.mem_cons_of_mem _ hl)
      rw [hnext] at hrest
      simp only [blankLines, List.zipIdx_cons, List.map_cons, scanLines, hline, hrest]

/-- Comments are blanks: a source has the same tokens, on the same lines, when each of its comments
is replaced by a space. -/
theorem tokenize_withoutComments (source : Text) :
    tokenize (withoutComments source) = tokenize source := by
  have hlines := scanLines_blankLines false (splitOn 0x0A source) 0 fun _ hl =>
    notMem_of_mem_splitOn hl
  rw [tokenize, tokenize, numberedLines, numberedLines, withoutComments, splitOn_blankFrom]
  exact congrArg List.flatten hlines

/-- A slash does not close the comment that it opens, and a string holds no comment. -/
example : withoutComments "+/*/ \" */+ // c\n\"//\"" = Text.ofString "+ +  \n\"//\"" := by
  decide

end TickScript
