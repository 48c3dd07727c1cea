import TickScript.Macro
import TickScript.Proofs.Faithful
import TickScript.Proofs.Table

/-!
# Tokens that name types

A token of the kind of type names always spells one of the seven names in its canonical form, from
the scanner on and through every replacement of a macro. A reader may therefore look up the type of
such a token without a check.

The type names come from the table of keywords, and only from there: a token of that kind is made by
`classify` and copied by macros. So the proof is a walk through the scanner and the directives, with
nothing to show but that no other step makes such a token.
-/

namespace TickScript

/-- A token that claims to name a type does. -/
def Token.NamesType (t : Token) : Prop := t.kind = .typeName → (t.text, t.kind) ∈ TokenKind.keywords

/-- All of some tokens are what they claim. -/
def NamesTypes (tokens : List Token) : Prop := ∀ t ∈ tokens, t.NamesType

namespace NamesTypes

theorem nil : NamesTypes [] := by simp [NamesTypes]

theorem cons {t : Token} {tokens : List Token} (ht : t.NamesType) (h : NamesTypes tokens) :
    NamesTypes (t :: tokens) := by
  simpa [NamesTypes] using ⟨ht, h⟩

theorem append {a b : List Token} (ha : NamesTypes a) (hb : NamesTypes b) : NamesTypes (a ++ b) := by
  intro t ht
  rcases List.mem_append.mp ht with ht | ht
  · exact ha t ht
  · exact hb t ht

theorem subset {a b : List Token} (h : NamesTypes b) (hsub : ∀ t ∈ a, t ∈ b) : NamesTypes a :=
  fun t ht => h t (hsub t ht)

end NamesTypes

/-- The type that a keyword of the kind of types names. -/
theorem ofName_keyword : ∀ entry ∈ TokenKind.keywords, entry.2 = .typeName →
    (VarType.ofName entry.1).isKnown = true
      ∧ (VarType.ofName entry.1 = .void → entry.1 = Text.ofString "void") := by
  decide +kernel

/-! ## Scanning -/

theorem Token.namesType_of_ne {t : Token} (h : t.kind ≠ .typeName) : t.NamesType :=
  fun hkind => absurd hkind h

theorem TokenKind.ofSign?_ne_typeName {b : UInt8} {kind : TokenKind} (h : ofSign? b = some kind) :
    kind ≠ .typeName := by
  rintro rfl
  simp only [ofSign?] at h
  split at h <;> cases h

theorem TokenKind.joined?_ne_typeName {a b kind : TokenKind} (h : joined? a b = some kind) :
    kind ≠ .typeName := by
  rintro rfl
  simp only [joined?] at h
  split at h <;> cases h

theorem namesType_classify (line : Int) (run : Text) : (classify line run).NamesType := by
  intro hkind
  simp only [classify] at hkind ⊢
  split at hkind
  · cases hkind
  · next hnumeral =>
      rw [if_neg hnumeral]
      split at hkind
      · next word kind hfind => exact List.mem_of_find?_eq_some hfind
      · cases hkind

theorem namesTypes_flush {line : Int} {run : Text} {tokens : List Token} (h : NamesTypes tokens) :
    NamesTypes (flush line run tokens) := by
  simp only [flush]
  split
  · exact h
  · exact .cons (namesType_classify line _) h

theorem namesTypes_addSign {line : Int} {b : UInt8} {kind : TokenKind} {adjacent : Bool}
    {tokens : List Token} (h : NamesTypes tokens) (hkind : kind ≠ .typeName) :
    NamesTypes (addSign line b kind adjacent tokens).1 := by
  have halone : NamesTypes (⟨kind, [b], line, []⟩ :: tokens) :=
    .cons (Token.namesType_of_ne hkind) h
  simp only [addSign]
  split
  · split
    · next hjoined =>
        exact .cons (Token.namesType_of_ne (TokenKind.joined?_ne_typeName hjoined))
          (h.subset fun t ht => List.mem_cons_of_mem _ ht)
    · exact halone
  · exact halone

theorem namesTypes_addContent {line : Int} {content : Text} {tokens : List Token}
    (h : NamesTypes tokens) : NamesTypes (addContent line content tokens) := by
  simp only [addContent]
  split
  · exact h
  · exact .cons (Token.namesType_of_ne (by simp)) h

theorem namesType_quoteToken (line : Int) : (quoteToken line).NamesType :=
  Token.namesType_of_ne (by simp [quoteToken])

theorem namesTypes_scanRest (line : Int) (mode : ScanMode) {tokens : List Token} (t : Text)
    (h : NamesTypes tokens) : NamesTypes (scanRest line mode tokens t).1 := by
  fun_induction scanRest line mode tokens t with
  | case1 => exact namesTypes_flush h
  | case2 => exact h
  | case3 => exact namesTypes_addContent h
  | case7 _ _ _ ih => exact ih (.cons (namesType_quoteToken line) (namesTypes_addContent h))
  | case9 => exact namesTypes_flush h
  | case10 _ _ _ _ ih => exact ih (namesTypes_flush h)
  | case11 _ _ _ _ ih => exact ih (.cons (namesType_quoteToken line) (namesTypes_flush h))
  | case12 _ _ _ _ _ _ _ _ _ ih => exact ih (namesTypes_flush h)
  | case13 _ _ _ _ _ _ _ _ _ _ hsign _ ih =>
      exact ih (namesTypes_addSign (namesTypes_flush h) (TokenKind.ofSign?_ne_typeName hsign))
  | case14 _ _ _ _ _ _ _ _ _ _ ih => exact ih h
  | _ => next ih => exact ih h

theorem namesTypes_scanLine (inComment : Bool) (number : Int) (line : Text) :
    NamesTypes (scanLine inComment number line).1 := by
  have h := namesTypes_scanRest number (if inComment then .comment else .code [] false)
    (dropReturn line) .nil
  exact h.subset fun t ht => by simpa [scanLine] using ht

theorem namesTypes_scanLines (inComment : Bool) (lines : List (Int × Text)) :
    ∀ line ∈ scanLines inComment lines, NamesTypes line := by
  induction lines generalizing inComment with
  | nil => simp [scanLines]
  | cons first rest ih =>
      obtain ⟨number, text⟩ := first
      simp only [scanLines, List.mem_cons]
      rintro line (rfl | hline)
      · exact namesTypes_scanLine inComment number text
      · exact ih _ line hline

/-! ## Macros -/

namespace Macros

open Stage

/-- All definitions of macros are what they claim. -/
def Sound (s : MacroState) : Prop :=
  ∀ name body, s.macros.get? name = some body → NamesTypes body

theorem namesTypes_moved {tokens : List Token} (h : NamesTypes tokens) (line : Int) (file : Text) :
    NamesTypes (tokens.map fun r => { r with line, file }) := by
  intro t ht
  obtain ⟨r, hr, rfl⟩ := List.mem_map.mp ht
  exact h r hr

theorem namesTypes_substitute {macros : Table Text (List Token)}
    (hmacros : ∀ name body, macros.get? name = some body → NamesTypes body) (inString : Bool)
    {tokens : List Token} (h : NamesTypes tokens) : NamesTypes (substitute macros inString tokens) := by
  induction tokens generalizing inString with
  | nil => exact .nil
  | cons t rest ih =>
      have ht : t.NamesType := h t (by simp)
      have hrest : NamesTypes rest := h.subset fun r hr => List.mem_cons_of_mem t hr
      simp only [substitute]
      generalize (if t.kind = .quote then !inString else inString) = quoted
      split
      · next replacement hreplacement =>
          split
          · exact .cons ht (ih _ hrest)
          · exact (namesTypes_moved (hmacros _ _ hreplacement) _ _).append (ih _ hrest)
      · exact .cons ht (ih _ hrest)

theorem ensures_expand {tokens : List Token} (h : NamesTypes tokens) :
    Ensures Sound (expand tokens) NamesTypes :=
  ensures_bind ensures_get fun _ hs => ensures_pure (namesTypes_substitute hs false h)

theorem ensures_define {hash : Token} {operands : List Token} (h : NamesTypes operands) :
    Ensures Sound (define hash operands) fun _ => True := by
  unfold define
  split
  · next name body =>
      split
      · have hbody : NamesTypes body := h.subset fun t ht => List.mem_cons_of_mem name ht
        refine ensures_bind (ensures_expand hbody) fun body hbody => ensures_modify fun s hs => ?_
        intro key value hget
        rw [Table.get?_set] at hget
        split at hget
        · exact Option.some.inj hget ▸ hbody
        · exact hs key value hget
      · exact ensures_report
  · exact ensures_report

theorem ensures_undefine (hash : Token) (operands : List Token) :
    Ensures Sound (undefine hash operands) fun _ => True := by
  unfold undefine
  split
  · refine ensures_modify fun s hs key value hget => ?_
    rw [Table.get?_erase] at hget
    split at hget
    · cases hget
    · exact hs key value hget
  · exact ensures_report

theorem ensures_read (ctx : MacroContext) (path : Text) :
    Ensures Sound (read ctx path) fun _ => True :=
  ensures_bind ensures_get fun _ hs =>
    ensures_bind (ensures_set hs) fun _ _ => ensures_pure trivial

theorem ensures_firstReadable (ctx : MacroContext) (paths : List Text) :
    Ensures Sound (firstReadable ctx paths) fun _ => True := by
  induction paths with
  | nil => exact ensures_pure trivial
  | cons path rest ih =>
      unfold firstReadable
      refine ensures_bind (ensures_read ctx path) fun answer _ => ?_
      split
      · exact ensures_pure trivial
      · exact ih

section

variable (ctx : MacroContext) {process : FileReader}
  (hprocess : ∀ file source, Ensures Sound (process file source) NamesTypes)

include hprocess

theorem ensures_includeFile (file : Text) (path : Token) :
    Ensures Sound (includeFile ctx process file path) NamesTypes := by
  unfold includeFile
  refine ensures_bind (ensures_firstReadable _ _) fun found? _ => ?_
  split
  · exact ensures_report_bind
  · refine ensures_bind ensures_get fun s _ => ?_
    split
    · exact ensures_pure .nil
    · refine ensures_bind (ensures_read _ _) fun content _ => ?_
      split
      · exact ensures_report_bind
      · exact ensures_bind (ensures_modify fun s hs => hs) fun _ _ => hprocess _ _

theorem ensures_directive {file : Text} {hash : Token} {operands : List Token}
    (h : NamesTypes operands) :
    Ensures Sound (directive ctx process file hash operands) NamesTypes := by
  unfold directive
  split
  · exact ensures_report_bind
  · next word rest =>
      have hrest : NamesTypes rest := h.subset fun t ht => List.mem_cons_of_mem word ht
      split
      · exact ensures_bind (ensures_define hrest) fun _ _ => ensures_pure .nil
      · split
        · exact ensures_bind (ensures_undefine _ _) fun _ _ => ensures_pure .nil
        · split
          · split
            · exact ensures_includeFile ctx hprocess _ _
            · exact ensures_report_bind
          · exact ensures_report_bind

theorem ensures_processLines (file : Text) (lines : List (List Token))
    (h : ∀ line ∈ lines, NamesTypes line) :
    Ensures Sound (processLines ctx process file lines) NamesTypes := by
  induction lines with
  | nil =>
      unfold processLines
      exact ensures_pure .nil
  | cons line rest ih =>
      have hline : NamesTypes line := h line (by simp)
      have hrest := ih fun l hl => h l (by simp [hl])
      have hgo {x : Macros (List Token)} (hx : Ensures Sound x NamesTypes) :
          Ensures Sound (do let tokens ← x; return tokens ++ (← processLines ctx process file rest))
            NamesTypes :=
        ensures_bind hx fun _ htokens =>
          ensures_bind hrest fun _ hmore => ensures_pure (htokens.append hmore)
      unfold processLines
      split
      · exact hgo (ensures_expand .nil)
      · next first operands =>
          split
          · exact hgo (ensures_directive ctx hprocess (hline.subset fun t ht => List.mem_cons_of_mem _ ht))
          · exact hgo (ensures_expand hline)

theorem ensures_processWith (file source : Text) :
    Ensures Sound (processWith ctx process file source) NamesTypes := by
  have hlines : ∀ line ∈ (scanLines false (numberedLines source)).map
      fun line => line.map fun t => { t with file := file }, NamesTypes line := by
    intro line hline
    obtain ⟨scanned, hscanned, rfl⟩ := List.mem_map.mp hline
    intro t ht
    obtain ⟨r, hr, rfl⟩ := List.mem_map.mp ht
    exact namesTypes_scanLines _ _ scanned hscanned r hr
  have hgo := ensures_processLines ctx hprocess file _ hlines
  unfold processWith
  split
  · exact ensures_bind (ensures_modify fun s hs => hs) fun _ _ => hgo
  · exact hgo

end

theorem ensures_processFile (ctx : MacroContext) (fuel : Nat) (file source : Text) :
    Ensures Sound (processFile ctx fuel file source) NamesTypes := by
  induction fuel generalizing file source with
  | zero => exact ensures_processWith ctx (fun _ _ => ensures_pure .nil) file source
  | succ fuel ih => exact ensures_processWith ctx ih file source

theorem ensures_processAll (ctx : MacroContext) (sources : List Source) :
    Ensures Sound (processAll ctx sources) NamesTypes := by
  induction sources with
  | nil => exact ensures_pure .nil
  | cons source rest ih =>
      unfold processAll
      exact ensures_bind (ensures_processFile ctx _ _ _) fun _ htokens =>
        ensures_bind ih fun _ hmore => ensures_pure (htokens.append hmore)

end Macros

end TickScript
