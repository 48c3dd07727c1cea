import TickScript.Proofs.Path
import TickScript.Proofs.Token

/-!
# What each byte of a source belongs to

A reader who goes over a source byte by byte needs four states to say what a byte belongs to: it is
part of the code, of a string, or of one of the two kinds of comments. `places` is that reader. It
knows nothing of lines, runs or tokens, and serves as the measure for the scanner, which goes line by
line and makes tokens on its way.

* A line comment starts at two slashes and runs to the end of its line.
* A block comment starts at a slash and a star and ends at the first star and slash behind both, on
  whichever line that is.
* A string ends at its closing quote or with its line; a backslash takes the next byte of the line
  along, whatever it is.
* Inside of a string or a comment nothing else starts.

The main lemma is `places_append`: reading may be cut at any place where the two bytes do not belong
together, so what a text is made of can be read piece by piece. `Moves` collects what the scanner
takes off the front at once, a comment, an escape, a byte of a string or of the code, each with the
region in which it goes on; the inductions over the scanner split into these moves.
-/

namespace TickScript

open Text

/-- What a reader is in the middle of. -/
inductive Region where
  | code
  | string
  | lineComment
  | blockComment
deriving DecidableEq, Repr

/-- What a byte belongs to. -/
inductive Place where
  | code
  /-- A string, its quotes included. -/
  | string
  /-- The first byte of a comment. -/
  | opening
  /-- The rest of a comment. -/
  | comment
deriving DecidableEq, Repr

/-- The bytes of a text, each with what it belongs to. -/
def places : Region → Text → List (Place × UInt8)
  | _, [] => []
  | .code, 0x2F :: 0x2F :: t => (.opening, 0x2F) :: (.comment, 0x2F) :: places .lineComment t
  | .code, 0x2F :: 0x2A :: t => (.opening, 0x2F) :: (.comment, 0x2A) :: places .blockComment t
  | .code, 0x22 :: t => (.string, 0x22) :: places .string t
  | .code, b :: t => (.code, b) :: places .code t
  | .string, 0x22 :: t => (.string, 0x22) :: places .code t
  | .string, 0x0A :: t => (.string, 0x0A) :: places .code t
  | .string, 0x5C :: 0x0A :: t => (.string, 0x5C) :: (.string, 0x0A) :: places .code t
  | .string, 0x5C :: c :: t => (.string, 0x5C) :: (.string, c) :: places .string t
  | .string, b :: t => (.string, b) :: places .string t
  | .lineComment, 0x0A :: t => (.code, 0x0A) :: places .code t
  | .lineComment, b :: t => (.comment, b) :: places .lineComment t
  | .blockComment, 0x2A :: 0x2F :: t => (.comment, 0x2A) :: (.comment, 0x2F) :: places .code t
  | .blockComment, b :: t => (.comment, b) :: places .blockComment t

/-- What the reader is in the middle of behind a text. -/
def behind : Region → Text → Region
  | r, [] => r
  | .code, 0x2F :: 0x2F :: t => behind .lineComment t
  | .code, 0x2F :: 0x2A :: t => behind .blockComment t
  | .code, 0x22 :: t => behind .string t
  | .code, _ :: t => behind .code t
  | .string, 0x22 :: t => behind .code t
  | .string, 0x0A :: t => behind .code t
  | .string, 0x5C :: 0x0A :: t => behind .code t
  | .string, 0x5C :: _ :: t => behind .string t
  | .string, _ :: t => behind .string t
  | .lineComment, 0x0A :: t => behind .code t
  | .lineComment, _ :: t => behind .lineComment t
  | .blockComment, 0x2A :: 0x2F :: t => behind .code t
  | .blockComment, _ :: t => behind .blockComment t

attribute [local simp] places behind

namespace Region

/-- What a byte belongs to that changes nothing. -/
def place : Region → Place
  | code => .code
  | string => .string
  | lineComment => .comment
  | blockComment => .comment

/-- What the end of a line belongs to. -/
def newline : Region → Place
  | lineComment => .code
  | r => r.place

/-- What the next line starts in. -/
def nextLine : Region → Region
  | blockComment => .blockComment
  | _ => .code

/-- What a line starts in, given whether a block comment is open. -/
def ofLine (inComment : Bool) : Region := if inComment then blockComment else code

end Region

/-- What the scanner is in the middle of. -/
@[simp] def ScanMode.region : ScanMode → Region
  | .code _ _ => .code
  | .comment => .blockComment
  | .string _ => .string

variable {r : Region} {t u w l rest body : Text} {b : UInt8}

/-- No byte is lost. -/
theorem map_snd_places (r : Region) (t : Text) : (places r t).map Prod.snd = t := by
  fun_induction places r t <;> simp_all

/-! ## Lines -/

/-- A text in whose first byte nothing starts or ends, and that no backslash takes along. -/
def Inert (w : Text) : Prop := ∀ b ∈ w.head?, b ≠ 0x2F ∧ b ≠ 0x2A ∧ b ≠ 0x22 ∧ b ≠ 0x5C

theorem Inert.append_ne {c : UInt8} (hw : Inert w) (hc : c = 0x2F ∨ c = 0x2A)
    (h : ∀ s, t ≠ c :: s) (s : Text) : t ++ w ≠ c :: s := by
  intro heq
  cases t with
  | nil =>
      have hhead := hw c (by rw [show w = c :: s from heq]; rfl)
      rcases hc with rfl | rfl
      · exact hhead.1 rfl
      · exact hhead.2.1 rfl
  | cons d t => exact h t (by rw [(List.cons.inj heq).1])

/-- What starts no comment starts none with more text behind it. -/
theorem Inert.starts_none (hw : Inert w) (hslashes : ∀ s, b = 0x2F → t = 0x2F :: s → False)
    (hstar : ∀ s, b = 0x2F → t = 0x2A :: s → False) :
    (∀ s, b = 0x2F → t ++ w ≠ 0x2F :: s) ∧ ∀ s, b = 0x2F → t ++ w ≠ 0x2A :: s :=
  ⟨fun s hb => hw.append_ne (.inl rfl) (fun s => hslashes s hb) s,
    fun s hb => hw.append_ne (.inr rfl) (fun s => hstar s hb) s⟩

theorem Inert.behind_backslash (hw : Inert w) :
    places .string (0x5C :: w) = (.string, 0x5C) :: places .string w
      ∧ behind .string (0x5C :: w) = behind .string w := by
  cases w with
  | nil => simp [places, behind]
  | cons c w =>
      obtain ⟨-, -, hquote, hbackslash⟩ := hw c rfl
      by_cases hc : c = 0x0A
      · subst hc
        simp [places, behind]
      · simp_all [places, behind]

/-- Reading goes on behind a text as if it started there, unless the two bytes at the cut belong
together. -/
theorem places_append (r : Region) (u : Text) (hw : Inert w) :
    places r (u ++ w) = places r u ++ places (behind r u) w
      ∧ behind r (u ++ w) = behind (behind r u) w := by
  fun_induction places r u with
  | case1 r => simp [behind]
  | case5 b t hslashes hstar hquote ih =>
      obtain ⟨hslashes', hstar'⟩ := hw.starts_none hslashes hstar
      simp_all [places, behind]
  | case10 b t hquote hnewline _ hescape ih =>
      by_cases hb : b = 0x5C
      · -- a backslash that takes nothing along stands at the end
        cases t with
        | nil =>
            subst hb
            simpa [places, behind] using hw.behind_backslash
        | cons c t => exact (hescape c t hb rfl).elim
      · simp_all [places, behind]
  | case14 b t hclose ih =>
      have hclose' (s) (hb : b = 0x2A) := hw.append_ne (.inl rfl) (fun s => hclose s hb) s
      simp_all [places, behind]
  | _ => simp_all [places, behind]

/-- What stands behind the end of a line is read from the start of the next one. -/
theorem places_newline (r : Region) (l rest : Text) :
    places r (l ++ 0x0A :: rest)
      = places r l ++ ((behind r l).newline, 0x0A) :: places (behind r l).nextLine rest := by
  rw [(places_append r l (w := 0x0A :: rest) (by simp [Inert])).1]
  cases behind r l <;> simp [places, Region.newline, Region.place, Region.nextLine]

theorem behind_newline (r : Region) (l rest : Text) :
    behind r (l ++ 0x0A :: rest) = behind (behind r l).nextLine rest := by
  rw [(places_append r l (w := 0x0A :: rest) (by simp [Inert])).2]
  cases behind r l <;> simp [behind, Region.nextLine]

/-- A carriage return changes nothing. -/
theorem places_return (r : Region) (l : Text) :
    places r (l ++ [0x0D]) = places r l ++ [((behind r l).place, 0x0D)]
      ∧ behind r (l ++ [0x0D]) = behind r l := by
  rw [(places_append r l (w := [0x0D]) (by simp [Inert])).1,
    (places_append r l (w := [0x0D]) (by simp [Inert])).2]
  cases behind r l <;> simp [places, behind, Region.place]

/-- A property of lines and of what stands behind them is one of texts. -/
theorem lineInduction {P : Text → Prop} (last : ∀ l, 0x0A ∉ l → P l)
    (line : ∀ l rest, 0x0A ∉ l → P rest → P (l ++ 0x0A :: rest)) (t : Text) : P t := by
  by_cases h : 0x0A ∈ t
  · obtain ⟨l, rest, ht, hl⟩ := List.eq_append_cons_of_mem h
    have hshorter : rest.length < t.length := by
      rw [ht, List.length_append, List.length_cons]
      omega
    exact ht ▸ line l rest hl (lineInduction last line rest)
  · exact last t h
termination_by t.length
decreasing_by exact hshorter

theorem dropReturn_concat (t : Text) : dropReturn (t ++ [0x0D]) = t := by simp [dropReturn]

theorem dropReturn_of_ne (h : t.getLast? ≠ some 0x0D) : dropReturn t = t := by simp [dropReturn, h]

theorem behind_dropReturn (r : Region) (l : Text) : behind r (dropReturn l) = behind r l := by
  by_cases hlast : l.getLast? = some 0x0D
  · obtain ⟨front, rfl⟩ := List.getLast?_eq_some_iff.1 hlast
    rw [dropReturn_concat, (places_return r front).2]
  · rw [dropReturn_of_ne hlast]

/-! ## Comments and strings as a whole -/

theorem places_inLineComment (h : 0x0A ∉ body) :
    places .lineComment body = body.map (Place.comment, ·)
      ∧ behind .lineComment body = .lineComment := by
  induction body with
  | nil => simp [places, behind]
  | cons b body ih =>
      obtain ⟨hb, hbody⟩ := not_or.1 (mt List.mem_cons.2 h)
      simp [places, behind, Ne.symm hb, ih hbody]

/-- A line comment holds what is left of its line. -/
theorem places_lineComment (h : 0x0A ∉ body) :
    places .code (0x2F :: 0x2F :: body ++ 0x0A :: rest) = (.opening, 0x2F) :: (.comment, 0x2F) ::
      body.map (Place.comment, ·) ++ (.code, 0x0A) :: places .code rest := by
  simp [places, List.cons_append, places_newline, places_inLineComment h, Region.newline,
    Region.nextLine]

/-- A block comment holds what stands before the first star and slash behind its opening. -/
theorem places_blockComment (h : ¬ [0x2A, 0x2F] <:+: body ++ [0x2A]) :
    places .code (0x2F :: 0x2A :: body ++ 0x2A :: 0x2F :: rest) = (.opening, 0x2F) :: (.comment, 0x2A) ::
      body.map (Place.comment, ·) ++ (.comment, 0x2A) :: (.comment, 0x2F) :: places .code rest := by
  have hbody : places .blockComment (body ++ 0x2A :: 0x2F :: rest) = body.map (Place.comment, ·)
      ++ (.comment, 0x2A) :: (.comment, 0x2F) :: places .code rest := by
    induction body with
    | nil => simp [places]
    | cons b body ih =>
        have hlater : ¬ [0x2A, 0x2F] <:+: body ++ [0x2A] := fun hin => h (List.infix_cons hin)
        have hopen : ∀ s, b = 0x2A → body ++ 0x2A :: 0x2F :: rest = 0x2F :: s → False := by
          rintro s rfl hs
          cases body with
          | nil => simp at hs
          | cons c body =>
              obtain rfl := (List.cons.inj hs).1
              exact h ⟨[], body ++ [0x2A], by simp⟩
        rw [List.cons_append, places, ih hlater]
        · rfl
        · exact hopen
  simp [places, hbody]

/-! ## What the scanner takes at once -/

theorem places_inCode (hslashes : ∀ s, b = 0x2F → t = 0x2F :: s → False)
    (hstar : ∀ s, b = 0x2F → t = 0x2A :: s → False) (hquote : b ≠ 0x22) :
    places .code (b :: t) = (.code, b) :: places .code t := by
  rw [places] <;> assumption

/-- What is taken off the front of a text in a region, with the region that the rest is read in. -/
structure Moves (r : Region) (l : Text) (r' : Region) (t : Text) : Prop where
  /-- The step goes forward. -/
  suffix : t <:+ l
  /-- What is behind the line stays the same. -/
  behind_eq : behind r l = behind r' t
  /-- The places of the bytes that are left stay the same. -/
  places_suffix : places r' t <:+ places r l

namespace Moves

variable {r' : Region} {c : UInt8}

theorem notMem (h : Moves r l r' t) (hb : b ∉ l) : b ∉ t := fun hmem => hb (h.suffix.subset hmem)

theorem notMem_places {p : Place × UInt8} (h : Moves r l r' t) (hp : p ∉ places r l) :
    p ∉ places r' t := fun hmem => hp (h.places_suffix.subset hmem)

/-- The last byte of the rest is the last byte of all. -/
theorem getLast?_places {p : Place × UInt8} (h : Moves r l r' t)
    (hp : (places r' t).getLast? = some p) : (places r l).getLast? = some p := by
  obtain ⟨front, hfront⟩ := h.places_suffix
  rw [← hfront, List.getLast?_append, hp]
  rfl

theorem closeBlock (t : Text) : Moves .blockComment (0x2A :: 0x2F :: t) .code t :=
  ⟨⟨[0x2A, 0x2F], rfl⟩, by simp only [behind],
    ⟨[(.comment, 0x2A), (.comment, 0x2F)], by simp only [places, List.cons_append, List.nil_append]⟩⟩

theorem inBlock (hclose : ∀ s, b = 0x2A → t = 0x2F :: s → False) :
    Moves .blockComment (b :: t) .blockComment t :=
  ⟨List.suffix_cons b t, by rw [behind]; exact hclose,
    ⟨[(.comment, b)], by rw [places]; exacts [rfl, hclose]⟩⟩

theorem escape (t : Text) (hc : c ≠ 0x0A) : Moves .string (0x5C :: c :: t) .string t :=
  ⟨⟨[0x5C, c], rfl⟩, by rw [behind]; exact hc,
    ⟨[(.string, 0x5C), (.string, c)], by rw [places]; exacts [rfl, hc]⟩⟩

theorem closeString (t : Text) : Moves .string (0x22 :: t) .code t :=
  ⟨⟨[0x22], rfl⟩, by simp only [behind],
    ⟨[(.string, 0x22)], by simp only [places, List.cons_append, List.nil_append]⟩⟩

/-- A byte that the string goes on behind; a backslash is one where nothing follows it. -/
theorem inString (hescape : ∀ c s, b = 0x5C → t = c :: s → False) (hquote : b ≠ 0x22)
    (hnewline : b ≠ 0x0A) : Moves .string (b :: t) .string t := by
  have hline (s) (hb : b = 0x5C) (ht : t = 0x0A :: s) : False := hescape 0x0A s hb ht
  exact ⟨List.suffix_cons b t, by rw [behind] <;> assumption,
    ⟨[(.string, b)], by rw [places] <;> first | rfl | assumption⟩⟩

theorem openLine (t : Text) : Moves .code (0x2F :: 0x2F :: t) .lineComment t :=
  ⟨⟨[0x2F, 0x2F], rfl⟩, by simp only [behind],
    ⟨[(.opening, 0x2F), (.comment, 0x2F)], by simp only [places, List.cons_append, List.nil_append]⟩⟩

theorem openBlock (t : Text) : Moves .code (0x2F :: 0x2A :: t) .blockComment t :=
  ⟨⟨[0x2F, 0x2A], rfl⟩, by simp only [behind],
    ⟨[(.opening, 0x2F), (.comment, 0x2A)], by simp only [places, List.cons_append, List.nil_append]⟩⟩

theorem openString (t : Text) : Moves .code (0x22 :: t) .string t :=
  ⟨⟨[0x22], rfl⟩, by simp only [behind],
    ⟨[(.string, 0x22)], by simp only [places, List.cons_append, List.nil_append]⟩⟩

/-- A byte of the code that opens nothing. -/
theorem inCode (hslashes : ∀ s, b = 0x2F → t = 0x2F :: s → False)
    (hstar : ∀ s, b = 0x2F → t = 0x2A :: s → False) (hquote : b ≠ 0x22) :
    Moves .code (b :: t) .code t :=
  ⟨List.suffix_cons b t, by rw [behind] <;> assumption,
    ⟨[(.code, b)], (places_inCode hslashes hstar hquote).symm⟩⟩

end Moves

end TickScript
