import TickScript.Proofs.Path
import TickScript.Proofs.Token.Signs

/-!
# Lines of tokens

A token has the number of the line that it was read from. So the tokens of a text come line by line, in
the order of the lines, and each is on a line that the text has.

These facts are used wherever tokens are gathered by their lines: for directives, which reach to the
end of a line, and for the lines on which a word is used.
-/

namespace TickScript

open Text

variable {n : Int} {t : Token} {tokens : List Token} {lines : List Text}

theorem line_classify (n : Int) (run : Text) : (classify n run).line = n := by
  simp only [classify]
  split
  · rfl
  · split <;> rfl

theorem line_of_mem_scanRest (n : Int) (mode : ScanMode) (tokens : List Token) (l : Text)
    (h : ∀ t ∈ tokens, t.line = n) : ∀ t ∈ (scanRest n mode tokens l).1, t.line = n := by
  -- the ways a token is added, each keeping the line
  have hcons {t : Token} {tokens : List Token} (ht : t.line = n) (h : ∀ t ∈ tokens, t.line = n) :
      ∀ t' ∈ t :: tokens, t'.line = n := List.forall_mem_cons.2 ⟨ht, h⟩
  have hflush {run : Text} {tokens : List Token} (h : ∀ t ∈ tokens, t.line = n) :
      ∀ t ∈ flush n run tokens, t.line = n := by
    rw [flush]
    split
    · exact h
    · exact hcons (line_classify n _) h
  have hcontent {content : Text} {tokens : List Token} (h : ∀ t ∈ tokens, t.line = n) :
      ∀ t ∈ addContent n content tokens, t.line = n := by
    rw [addContent]
    split
    · exact h
    · exact hcons rfl h
  have hsign {b : UInt8} {kind : TokenKind} {adjacent : Bool} {tokens : List Token}
      (h : ∀ t ∈ tokens, t.line = n) : ∀ t ∈ (addSign n b kind adjacent tokens).1, t.line = n := by
    simp only [addSign]
    split
    · next last rest =>
        obtain ⟨hlast, hrest⟩ := List.forall_mem_cons.1 h
        split
        · exact hcons hlast hrest
        · exact hcons rfl h
    · exact hcons rfl h
  -- no case makes a token in another way
  fun_induction scanRest n mode tokens l with
  | case1 => exact hflush h
  | case2 => exact h
  | case3 => exact hcontent h
  | case4 tokens t ih => exact ih h
  | case5 tokens b t hclose ih => exact ih h
  | case6 content tokens c t ih => exact ih h
  | case7 content tokens t ih => exact ih (hcons rfl (hcontent h))
  | case8 content tokens b t hescape hquote ih => exact ih h
  | case9 => exact hflush h
  | case10 run adjacent tokens t ih => exact ih (hflush h)
  | case11 run adjacent tokens t ih => exact ih (hcons rfl (hflush h))
  | case12 run adjacent tokens b t hslashes hstar hquote hblank ih => exact ih (hflush h)
  | case13 run adjacent tokens b t hslashes hstar hquote hblank kind hkind added ih =>
      exact ih (hsign (hflush h))
  | case14 run adjacent tokens b t hslashes hstar hquote hblank hkind ih => exact ih h

theorem line_of_mem_scanLine {inComment : Bool} {l : Text} (h : t ∈ (scanLine inComment n l).1) :
    t.line = n := by
  simp only [scanLine, List.mem_reverse] at h
  exact line_of_mem_scanRest n _ [] _ (by simp) t h

/-- Some lines with their numbers, from the one behind `k` on. -/
def numberedFrom (k : Nat) (lines : List Text) : List (Int × Text) :=
  (lines.zipIdx k).map fun (line, index) => ((index : Int) + 1, line)

theorem numberedFrom_cons (k : Nat) (l : Text) (lines : List Text) :
    numberedFrom k (l :: lines) = ((k : Int) + 1, l) :: numberedFrom (k + 1) lines := by
  simp [numberedFrom]

theorem scanLines_cons (inComment : Bool) (k : Nat) (l : Text) (lines : List Text) :
    scanLines inComment (numberedFrom k (l :: lines)) = (scanLine inComment (k + 1) l).1
      :: scanLines (scanLine inComment (k + 1) l).2 (numberedFrom (k + 1) lines) := by
  rw [numberedFrom_cons, scanLines]

theorem line_of_mem_scanLines {inComment : Bool} {k : Nat}
    (h : t ∈ (scanLines inComment (numberedFrom k lines)).flatten) :
    k + 1 ≤ t.line ∧ t.line ≤ k + lines.length := by
  induction lines generalizing inComment k with
  | nil => simp [numberedFrom, scanLines] at h
  | cons l lines ih =>
      rw [scanLines_cons, List.flatten_cons, List.mem_append] at h
      rw [List.length_cons]
      rcases h with h | h
      · have hline := line_of_mem_scanLine h
        omega
      · have hrest := ih h
        omega

/-- The tokens come in the order of their lines. -/
theorem pairwise_line_scanLines (inComment : Bool) (k : Nat) (lines : List Text) :
    ((scanLines inComment (numberedFrom k lines)).flatten.map Token.line).Pairwise (· ≤ ·) := by
  induction lines generalizing inComment k with
  | nil => exact List.Pairwise.nil
  | cons l lines ih =>
      rw [scanLines_cons, List.flatten_cons, List.map_append, List.pairwise_append]
      refine ⟨?_, ih _ _, fun a ha b hb => ?_⟩
      · refine List.Pairwise.map _ (R := fun t t' => t.line ≤ t'.line) (fun _ _ h => h)
          (List.pairwise_iff_forall_sublist.2 fun {a b} hab => ?_)
        have ha := line_of_mem_scanLine (hab.subset (List.mem_cons_self))
        have hb := line_of_mem_scanLine (hab.subset (List.mem_cons_of_mem _ List.mem_cons_self))
        omega
      · obtain ⟨t, ht, rfl⟩ := List.mem_map.1 ha
        obtain ⟨t', ht', rfl⟩ := List.mem_map.1 hb
        have hline := line_of_mem_scanLine ht
        have hrest := (line_of_mem_scanLines ht').1
        omega

theorem tokenize_eq (source : Text) :
    tokenize source = (scanLines false (numberedFrom 0 (splitOn 0x0A source))).flatten := rfl

/-- A token is on a line that the text has. -/
theorem line_of_mem_tokenize {source : Text} (h : t ∈ tokenize source) :
    1 ≤ t.line ∧ t.line ≤ (splitOn 0x0A source).length := by
  rw [tokenize_eq] at h
  have hline := line_of_mem_scanLines h
  omega

end TickScript
