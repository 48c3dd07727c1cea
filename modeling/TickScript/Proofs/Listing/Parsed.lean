import TickScript.Proofs.Expr.Parser
import TickScript.Proofs.Listing.Numeral

/-!
# What a parsed listing is made of

The texts in a parsed listing come from its lexemes: what stands as an integer has the bytes of an
integer, what stands as a name has those of a name. Each reader of the grammar hands on the lexemes
that it leaves, so the fact is carried along with them.

The kinds of lexemes are recorded by the lexer and asked for by the grammar, so no text has to be
looked at again: `take_spelled` turns a kind that was asked for into a fact about the bytes. What
the assembler later does with such bytes is in `Proofs.Listing.Numeral`.
-/

namespace TickScript

open Text
open TickScript.Expr (bind_eq_ok)

namespace Listing

/-! ## Lexemes -/

/-- An integer has the bytes of an integer, a name those of a name. -/
structure LexemeKind.Admits (kind : LexemeKind) (t : Text) : Prop where
  int : kind = .int → IsInt t
  ident : kind = .ident → isName t = true

/-- All lexemes have the bytes of their kind. -/
def AllSpelled (ls : List Lexeme) : Prop := ∀ l ∈ ls, l.kind.Admits l.text

theorem signAt_cases (t : Text) : signAt t = [] ∨ ∃ b, signAt t = [b] ∧ (b = 0x2D ∨ b = 0x2B) := by
  unfold signAt
  split
  · exact .inr ⟨0x2D, rfl, .inl rfl⟩
  · exact .inr ⟨0x2B, rfl, .inr rfl⟩
  · exact .inl rfl

/-- What is read as digits is a magnitude. -/
theorem isMagnitude_of_digitsAt {t w : Text} (h : digitsAt t = some w) : IsMagnitude w := by
  simp only [digitsAt] at h
  split at h
  · cases h
  · next hne =>
      obtain rfl := Option.some.inj h
      have hdigits : ∀ c ∈ t.takeWhile isDigit, isDigit c = true := fun _ => List.mem_takeWhile_imp
      cases hrun : t.takeWhile isDigit with
      | nil => exact absurd (List.isEmpty_iff.2 hrun) hne
      | cons b digits =>
          rw [hrun] at hdigits
          obtain ⟨hb, hrest⟩ := List.forall_mem_cons.1 hdigits
          exact .decimal hb hrest

/-- What is read as an integer is one, in either base. -/
theorem isInt_of_intAt {t w : Text} (h : intAt t = some w) : IsInt w := by
  have hsign {u : Text} (hu : IsMagnitude u) : IsInt (signAt t ++ u) := by
    rcases signAt_cases t with hsign | ⟨b, hsign, hb⟩
    · rw [hsign]
      exact .unsigned hu
    · rw [hsign]
      exact .signed hb hu
  have hdecimal {u : Text} (h : (digitsAt u).map (signAt t ++ ·) = some w) : IsInt w := by
    obtain ⟨digits, hdigits, rfl⟩ := Option.map_eq_some_iff.1 h
    exact hsign (isMagnitude_of_digitsAt hdigits)
  simp only [intAt] at h
  split at h
  · next mark rest hbody =>
      split at h
      · next hmark =>
          obtain rfl := Option.some.inj h
          simp only [Bool.and_eq_true, beq_iff_eq, Bool.not_eq_true', List.isEmpty_eq_false_iff] at hmark
          exact hsign (.hexadecimal hmark.1 hmark.2 fun _ => List.mem_takeWhile_imp)
      · exact hdecimal h
  · exact hdecimal h

/-- What is read as a name is one. -/
theorem isName_of_nameAt {t name : Text} (h : nameAt t = some name) : isName name = true := by
  cases t with
  | nil => cases h
  | cons b rest =>
      simp only [nameAt] at h
      split at h
      · next hstart =>
          obtain rfl := Option.some.inj h
          exact isName_cons hstart fun _ => List.mem_takeWhile_imp
      · cases h

/-- Every lexeme has the form of its kind. -/
theorem admits_of_lexemeAt {t w : Text} {kind : LexemeKind} (h : lexemeAt t = some (some kind, w)) :
    kind.Admits w := by
  -- nothing is said of lexemes of other kinds
  have hother {kind' : LexemeKind} {w' : Text} (h : some (some kind', w') = some (some kind, w))
      (hint : kind' ≠ .int) (hident : kind' ≠ .ident) : kind.Admits w := by
    cases h
    exact ⟨fun heq => absurd heq hint, fun heq => absurd heq hident⟩
  unfold lexemeAt at h
  split at h
  · cases h
  · next b rest =>
      split at h
      · cases h
      split at h
      · cases h
      split at h
      · exact hother h (by decide) (by decide)
      split at h
      · exact hother h (by decide) (by decide)
      split at h
      · -- a name is told from a label and from a word of the language
        next name hname =>
          split at h
          · exact hother h (by decide) (by decide)
          · cases h
            exact ⟨fun heq => absurd heq (by decide), fun _ => isName_of_nameAt hname⟩
      split at h
      · exact hother h (by decide) (by decide)
      split at h
      · -- an integer
        next text hint =>
          cases h
          exact ⟨fun _ => isInt_of_intAt hint, fun heq => absurd heq (by decide)⟩
      split at h
      · obtain ⟨text, -, htext⟩ := Option.map_eq_some_iff.1 h
        exact hother (congrArg some htext) (by decide) (by decide)
      split at h
      · exact hother h (by decide) (by decide)
      · cases h

/-- By induction on the fuel, one lexeme after the other. -/
theorem allSpelled_lexemesFrom {fuel : Nat} {place : Place} {t : Text} {ls : List Lexeme}
    (h : lexemesFrom fuel place t = .ok ls) : AllSpelled ls := by
  induction fuel generalizing place t ls with
  | zero =>
      cases h
      exact List.forall_mem_nil _
  | succ fuel ih =>
      cases t with
      | nil =>
          cases h
          exact List.forall_mem_nil _
      | cons b t =>
          simp only [lexemesFrom] at h
          split at h
          · cases h
          · next kind? text hlexeme =>
              obtain ⟨rest, hrest, h⟩ := bind_eq_ok.1 h
              cases kind? with
              | none =>
                  cases h
                  exact ih hrest
              | some kind =>
                  cases h
                  exact List.forall_mem_cons.2 ⟨admits_of_lexemeAt hlexeme, ih hrest⟩

theorem allSpelled_lexemes {source : Text} {ls : List Lexeme} (h : lexemes source = .ok ls) :
    AllSpelled ls :=
  allSpelled_lexemesFrom h

/-! ## The grammar -/

/-- The numbers of an argument have the bytes of integers. -/
def Argument.Spelled : Argument → Prop
  | .int t => IsInt t
  | .bytes items => ∀ t ∈ items, IsInt t
  | _ => True

/-- The numbers of a line have the bytes of integers. -/
def Line.Spelled : Line → Prop
  | .label _ _ => True
  | .instr i => ∀ a ∈ i.arguments, a.argument.Spelled

/-- The numbers of a declaration have the bytes of integers. What it is called is a name or an
integer. -/
def Item.Spelled : Item → Prop
  | .global _ _ name _ value? => (isName name = true ∨ IsInt name) ∧ ∀ a ∈ value?, a.Spelled
  | .function _ name params _ ks => (isName name = true ∨ IsInt name) ∧ IsInt params
    ∧ ∀ line ∈ ks, line.Spelled

section

variable {last : Place} {tokens rest : List Lexeme} (hall : AllSpelled tokens)

include hall

/-- What is taken is of one of the kinds that are asked for. -/
theorem take_spelled {kinds : List LexemeKind} {t : Text} (h : take last kinds tokens = .ok (t, rest)) :
    (∃ kind ∈ kinds, kind.Admits t) ∧ AllSpelled rest := by
  cases tokens with
  | nil => cases h
  | cons l tokens =>
      simp only [take] at h
      split at h
      · next hkind =>
          cases h
          obtain ⟨hl, hrest⟩ := List.forall_mem_cons.1 hall
          exact ⟨⟨l.kind, by simpa using hkind, hl⟩, hrest⟩
      · cases h

/-- The items between brackets are integers. -/
theorem byteItems_spelled {items : List Text} (h : byteItems last tokens = .ok (items, rest)) :
    (∀ t ∈ items, IsInt t) ∧ AllSpelled rest := by
  induction tokens generalizing items with
  | nil => cases h
  | cons l tokens ih =>
      obtain ⟨hl, htokens⟩ := List.forall_mem_cons.1 hall
      rw [byteItems] at h
      split at h
      · next hint =>
          obtain ⟨⟨more, left⟩, hmore, h⟩ := bind_eq_ok.1 h
          cases h
          obtain ⟨hitems, hrest⟩ := ih htokens hmore
          exact ⟨List.forall_mem_cons.2 ⟨hl.int hint, hitems⟩, hrest⟩
      · split at h
        · cases h
          exact ⟨List.forall_mem_nil _, htokens⟩
        · cases h

/-- An argument has the form of its kind. -/
theorem argument?_spelled {a : PlacedArgument} (h : argument? last tokens = .ok (some (a, rest))) :
    a.argument.Spelled ∧ AllSpelled rest := by
  cases tokens with
  | nil => cases h
  | cons l tokens =>
      obtain ⟨hl, htokens⟩ := List.forall_mem_cons.1 hall
      rw [argument?] at h
      split at h
      · next hint =>
          cases h
          exact ⟨hl.int hint, htokens⟩
      · cases h
        exact ⟨trivial, htokens⟩
      · cases h
        exact ⟨trivial, htokens⟩
      · cases h
        exact ⟨trivial, htokens⟩
      · split at h
        · obtain ⟨⟨items, left⟩, hitems, h⟩ := bind_eq_ok.1 h
          cases h
          exact byteItems_spelled htokens hitems
        · cases h
      · cases h

/-- So do all arguments of a line. -/
theorem arguments_spelled {fuel : Nat} {args : List PlacedArgument}
    (h : arguments last fuel tokens = .ok (args, rest)) :
    (∀ a ∈ args, a.argument.Spelled) ∧ AllSpelled rest := by
  induction fuel generalizing tokens args with
  | zero =>
      cases h
      exact ⟨List.forall_mem_nil _, hall⟩
  | succ fuel ih =>
      rw [arguments] at h
      obtain ⟨found, hfound, h⟩ := bind_eq_ok.1 h
      split at h
      · cases h
        exact ⟨List.forall_mem_nil _, hall⟩
      · obtain ⟨ha, hleft⟩ := argument?_spelled hall hfound
        obtain ⟨⟨more, left⟩, hmore, h⟩ := bind_eq_ok.1 h
        cases h
        obtain ⟨hargs, hrest⟩ := ih hleft hmore
        exact ⟨List.forall_mem_cons.2 ⟨ha, hargs⟩, hrest⟩

theorem lineEnd_spelled {args : List PlacedArgument} (h : lineEnd last args tokens = .ok rest) :
    AllSpelled rest := by
  have htake (h : (take last [.endOfLine] tokens).map (·.2) = .ok rest) : AllSpelled rest := by
    cases hread : take last [.endOfLine] tokens with
    | error e =>
        rw [hread] at h
        cases h
    | ok found =>
        rw [hread] at h
        obtain rfl := Except.ok.inj h
        exact (take_spelled hall hread).2
  unfold lineEnd at h
  split at h
  · split at h
    · cases h
    · exact htake h
  · exact htake h

/-- So does every line of a function. -/
theorem lines_spelled {fuel : Nat} {ks : List Line} (h : lines last fuel tokens = .ok (ks, rest)) :
    (∀ line ∈ ks, line.Spelled) ∧ AllSpelled rest := by
  induction fuel generalizing tokens ks with
  | zero =>
      cases h
      exact ⟨List.forall_mem_nil _, hall⟩
  | succ fuel ih =>
      cases tokens with
      | nil =>
          cases h
          exact ⟨List.forall_mem_nil _, hall⟩
      | cons l tokens =>
          obtain ⟨-, htokens⟩ := List.forall_mem_cons.1 hall
          -- a line end, a label, an instruction, or the end of the function
          simp only [lines] at h
          split at h
          · exact ih htokens h
          · obtain ⟨⟨more, left⟩, hmore, h⟩ := bind_eq_ok.1 h
            cases h
            obtain ⟨hks, hrest⟩ := ih htokens hmore
            exact ⟨List.forall_mem_cons.2 ⟨trivial, hks⟩, hrest⟩
          · obtain ⟨⟨args, behind⟩, hfound, h⟩ := bind_eq_ok.1 h
            obtain ⟨left, hleft, h⟩ := bind_eq_ok.1 h
            obtain ⟨⟨more, left'⟩, hmore, h⟩ := bind_eq_ok.1 h
            cases h
            obtain ⟨hargs, hbehind⟩ := arguments_spelled htokens hfound
            obtain ⟨hks, hrest⟩ := ih (lineEnd_spelled hbehind hleft) hmore
            exact ⟨List.forall_mem_cons.2 ⟨hargs, hks⟩, hrest⟩
          · cases h
            exact ⟨List.forall_mem_nil _, hall⟩

theorem name_spelled {t : Text} (h : take last [.ident, .int] tokens = .ok (t, rest)) :
    (isName t = true ∨ IsInt t) ∧ AllSpelled rest := by
  obtain ⟨⟨kind, hkind, hadmits⟩, hrest⟩ := take_spelled hall h
  refine ⟨?_, hrest⟩
  rcases List.mem_pair.1 hkind with rfl | rfl
  · exact .inl (hadmits.ident rfl)
  · exact .inr (hadmits.int rfl)

/-- A field or variable has a name or a number for its id, and a value of some form. -/
theorem global_spelled {place : Place} {isField : Bool} {item : Item}
    (h : global last place isField tokens = .ok (item, rest)) : item.Spelled ∧ AllSpelled rest := by
  rw [global] at h
  obtain ⟨⟨name, behind⟩, hname, h⟩ := bind_eq_ok.1 h
  obtain ⟨⟨type, behind'⟩, htype, h⟩ := bind_eq_ok.1 h
  obtain ⟨found?, hfound, h⟩ := bind_eq_ok.1 h
  obtain ⟨hname, hbehind⟩ := name_spelled hall hname
  obtain ⟨-, hbehind'⟩ := take_spelled hbehind htype
  cases found? with
  | none =>
      obtain ⟨⟨value?, behind''⟩, hvalue, h⟩ := bind_eq_ok.1 h
      cases hvalue
      obtain ⟨⟨line, left⟩, hline, h⟩ := bind_eq_ok.1 h
      cases h
      exact ⟨⟨hname, fun _ heq => absurd heq (Option.not_mem_none _)⟩,
        (take_spelled hbehind' hline).2⟩
  | some found =>
      obtain ⟨a, left'⟩ := found
      obtain ⟨⟨value?, behind''⟩, hvalue, h⟩ := bind_eq_ok.1 h
      cases hvalue
      obtain ⟨⟨line, left⟩, hline, h⟩ := bind_eq_ok.1 h
      cases h
      obtain ⟨ha, hleft⟩ := argument?_spelled hbehind' hfound
      exact ⟨⟨hname, fun _ heq => Option.some.inj heq ▸ ha⟩, (take_spelled hleft hline).2⟩

theorem function_spelled {place : Place} {item : Item}
    (h : function last place tokens = .ok (item, rest)) : item.Spelled ∧ AllSpelled rest := by
  rw [function] at h
  obtain ⟨⟨name, behind⟩, hname, h⟩ := bind_eq_ok.1 h
  obtain ⟨⟨params, behind'⟩, hparams, h⟩ := bind_eq_ok.1 h
  obtain ⟨⟨returns, behind''⟩, hreturns, h⟩ := bind_eq_ok.1 h
  obtain ⟨⟨line, left⟩, hline, h⟩ := bind_eq_ok.1 h
  obtain ⟨⟨ks, left'⟩, hks, h⟩ := bind_eq_ok.1 h
  cases h
  obtain ⟨hname, hbehind⟩ := name_spelled hall hname
  obtain ⟨⟨kind, hkind, hadmits⟩, hbehind'⟩ := take_spelled hbehind hparams
  obtain ⟨-, hbehind''⟩ := take_spelled hbehind' hreturns
  obtain ⟨-, hleft⟩ := take_spelled hbehind'' hline
  obtain ⟨hks, hrest⟩ := lines_spelled hleft hks
  exact ⟨⟨hname, hadmits.int (List.mem_singleton.1 hkind), hks⟩, hrest⟩

/-- Every item of a parsed listing has the forms that the lexer cuts. -/
theorem items_spelled {fuel : Nat} {its : List Item} (h : items last fuel tokens = .ok its) :
    ∀ item ∈ its, item.Spelled := by
  induction fuel generalizing tokens its with
  | zero =>
      cases h
      exact List.forall_mem_nil _
  | succ fuel ih =>
      cases tokens with
      | nil =>
          cases h
          exact List.forall_mem_nil _
      | cons l tokens =>
          obtain ⟨-, htokens⟩ := List.forall_mem_cons.1 hall
          -- one declaration of whatever kind, and those behind it
          have hbehind {x : Except GrammarError (Item × List Lexeme)}
              (hx : ∀ item left, x = .ok (item, left) → item.Spelled ∧ AllSpelled left)
              (h : (do
                let found ← x
                return found.1 :: (← items last fuel found.2)) = .ok its) :
              ∀ item ∈ its, item.Spelled := by
            obtain ⟨⟨item, left⟩, hitem, h⟩ := bind_eq_ok.1 h
            obtain ⟨more, hmore, h⟩ := bind_eq_ok.1 h
            cases h
            obtain ⟨hfirst, hleft⟩ := hx item left hitem
            exact List.forall_mem_cons.2 ⟨hfirst, ih hleft hmore⟩
          simp only [items] at h
          split at h
          · exact ih htokens h
          split at h
          · exact hbehind (fun _ _ => global_spelled htokens) h
          split at h
          · exact hbehind (fun _ _ => global_spelled htokens) h
          split at h
          · exact hbehind (fun _ _ => function_spelled htokens) h
          · exact hbehind (x := refuse last (l :: tokens)) (fun _ _ hrefused => by cases hrefused) h

end

/-- The numbers of a parsed listing have the bytes of integers. -/
theorem parse_spelled {source : Text} {its : List Item} (h : parse source = .ok its) :
    ∀ item ∈ its, item.Spelled := by
  rw [parse] at h
  obtain ⟨tokens, htokens, h⟩ := bind_eq_ok.1 h
  exact items_spelled (allSpelled_lexemes htokens) h

end Listing

end TickScript
