import TickScript.Expr.Parser
import TickScript.Proofs.Expr.Grammar

/-!
# Reading follows the grammar

The reader decides by binding power alone: it takes an operand and then every operator that binds
tighter than the place it stands in. Reading is sound because what follows an operand never binds
tighter than the operand does (`Fits`), and complete because a derivation at a stratum can be read
at every looser place, with the operators behind it still to come.

The readers count their calls down. A reader that is given four calls for each token never runs out,
and all statements here carry that bound.

Soundness is an induction on the fuel, completeness one on the derivation. In the second the
statement has to be about tokens behind the expression as well: a derivation at stratum 5 can be
read at any place that asks for less, and what the reader does behind it is what it would do behind
an operand (`ReadsThrough`). A derivation at a looser stratum starts with a tighter one, and the
operators in between are consumed one at a time, from the left.

The reader takes any token between two quotes for the string. The equivalence is therefore with the
grammar that allows this (`AnyContent`), and `LooseString` marks the inputs where that differs from
the grammar with texts between quotes.
-/

namespace TickScript

/-- A binary operator binds as tightly as its stratum says. -/
theorem TokenKind.infixPower_of_stratum {kind : TokenKind} {n : Nat} (h : kind.stratum? = some n) :
    kind.infixPower = n := by
  cases kind <;> cases h <;> rfl

theorem TokenKind.infixPower_of_assignment {kind : TokenKind} (h : kind.isAssignment = Bool.true) :
    kind.infixPower = 1 := by
  cases kind <;> cases h <;> rfl

theorem TokenKind.infixPower_of_step {kind : TokenKind} (h : kind.isStepOperator = Bool.true) :
    kind.infixPower = 8 := by
  cases kind <;> cases h <;> rfl

/-- The operators behind an operand. -/
theorem TokenKind.operator_cases {kind : TokenKind} (h : 0 < kind.infixPower) :
    kind = .leftParen ∨ kind = .leftBracket ∨ kind.isStepOperator = Bool.true
      ∨ kind.isAssignment = Bool.true ∨ ∃ n, kind.stratum? = some n := by
  revert h
  cases kind <;> simp [infixPower, isStepOperator, isAssignment, stratum?]

namespace Expr

/-- A reader succeeds if its first part does and the second one does on what is left. -/
theorem bind_eq_ok {ε α β : Type} {x : Except ε α} {f : α → Except ε β} {b : β} :
    (x >>= f) = .ok b ↔ ∃ a, x = .ok a ∧ f a = .ok b := by
  cases x with
  | error e =>
    constructor
    · intro h
      cases h
    · rintro ⟨_, h, _⟩
      cases h
  | ok a =>
    constructor
    · intro h
      exact ⟨a, rfl, h⟩
    · rintro ⟨_, ⟨⟩, hf⟩
      exact hf

/-! ## One step of each reader -/

section Steps

variable {final t : Token} {fuel least : Nat} {left : Expr} {rest : List Token}

/-- The right side of a binary operator takes everything that binds tighter. -/
theorem readOperator_binary {n : Nat} (h : t.kind.stratum? = some n) :
    readOperator final (fuel + 1) left t rest
      = (do let r ← readFrom final fuel n rest; .ok (.binary t left r.1, r.2)) := by
  obtain ⟨kind, text, line, file⟩ := t
  cases kind <;> cases h <;> rfl

/-- The right side of an assignment takes everything, assignments included. -/
theorem readOperator_assign (h : t.kind.isAssignment = true) :
    readOperator final (fuel + 1) left t rest
      = match variableToken? left with
        | some target => do let r ← readFrom final fuel 0 rest; .ok (.assign t target r.1, r.2)
        | none => failAt t (.targetNotVariable t.text) := by
  obtain ⟨kind, text, line, file⟩ := t
  cases kind <;> cases h <;> rfl

/-- A step behind a variable takes nothing more. -/
theorem readOperator_step (h : t.kind.isStepOperator = true) :
    readOperator final (fuel + 1) left t rest
      = match variableToken? left with
        | some target => .ok (.step t target true, rest)
        | none => failAt t (.operandNotVariable t.text) := by
  obtain ⟨kind, text, line, file⟩ := t
  cases kind <;> cases h <;> rfl

/-- A subscript reaches to its bracket. -/
theorem readOperator_index (h : t.kind = .leftBracket) :
    readOperator final (fuel + 1) left t rest
      = (do
          let r ← readFrom final fuel 0 rest
          let rest ← expect final .rightBracket r.2
          .ok (.index left r.1, rest)) := by
  obtain ⟨kind, text, line, file⟩ := t
  obtain rfl : kind = .leftBracket := h
  rfl

/-- The argument list of a call ends at once, or starts with an argument. -/
theorem readOperator_call (h : t.kind = .leftParen) :
    readOperator final (fuel + 1) left t rest
      = (do
          let callee ← callee t left
          if rest.head?.map (·.kind) = some .rightParen then .ok (.call callee [], rest.tail)
          else do
            let r ← readArguments final fuel t rest
            .ok (.call callee r.1, r.2)) := by
  obtain ⟨kind, text, line, file⟩ := t
  obtain rfl : kind = .leftParen := h
  cases rest with
  | nil => rfl
  | cons next rest =>
    obtain ⟨kind, text, line, file⟩ := next
    cases kind <;> rfl

/-- The operand of a sign takes what binds tighter than every binary operator. -/
theorem readOperand_sign (h : t.kind.isSignOperator = true) :
    readOperand final (fuel + 1) t rest
      = (do let r ← readFrom final fuel 7 rest; .ok (.unary t r.1, r.2)) := by
  obtain ⟨kind, text, line, file⟩ := t
  cases kind <;> cases h <;> rfl

/-- A step in front of a variable reads an operand and accepts only a variable. -/
theorem readOperand_step (h : t.kind.isStepOperator = true) :
    readOperand final (fuel + 1) t rest
      = (do
          let r ← readFrom final fuel 7 rest
          match variableToken? r.1 with
          | some target => .ok (.step t target false, r.2)
          | none => failAt t (.operandNotVariable t.text)) := by
  obtain ⟨kind, text, line, file⟩ := t
  cases kind <;> cases h <;> rfl

/-- Parentheses enclose a whole expression and leave no trace in the tree. -/
theorem readOperand_paren (h : t.kind = .leftParen) :
    readOperand final (fuel + 1) t rest
      = (do
          let r ← readFrom final fuel 0 rest
          let rest ← expect final .rightParen r.2
          .ok (r.1, rest)) := by
  obtain ⟨kind, text, line, file⟩ := t
  obtain rfl : kind = .leftParen := h
  rfl

theorem readOperand_word (h : t.kind.isOperandWord = true) :
    readOperand final (fuel + 1) t rest = .ok (.word t, rest) := by
  obtain ⟨kind, text, line, file⟩ := t
  cases kind <;> cases h <;> rfl

end Steps

/-! ## Where reading stops -/

/-- The next token binds no tighter than the place asks. -/
def Stops (least : Nat) (rest : List Token) : Prop :=
  ∀ t ∈ rest.head?, t.kind.infixPower ≤ least

/-- The next token can follow an operand of a stratum. All of steps, indexing and calls are of
stratum 8, whatever their power; an assignment cannot follow another one, whose value it would
belong to. -/
def Fits (n : Nat) (rest : List Token) : Prop :=
  ∀ t ∈ rest.head?, min t.kind.infixPower 8 ≤ n ∧ (t.kind.infixPower = 1 → 2 ≤ n)

/-- Reading stops at what fits behind the place. -/
theorem Stops.fits {least n : Nat} {rest : List Token} (h : Stops least rest)
    (hle : least < n ∨ least ≤ n ∧ 2 ≤ n) : Fits n rest := by
  intro t ht
  have := h t ht
  omega

theorem Fits.stops {rest : List Token} (h : Fits 7 rest) : Stops 7 rest := by
  intro t ht
  have := (h t ht).1
  omega

theorem fits_of_le {n : Nat} (h : 8 ≤ n) (rest : List Token) : Fits n rest := by
  intro t _
  omega

/-- Any token but a quote may stand between quotes. -/
abbrev AnyContent (kind : TokenKind) : Prop := kind ≠ .quote

/-- A tree that needs no parentheses is derived without its operators. -/
theorem Derives.atom {content : TokenKind → Prop} {n : Nat} {ts : List Token} {e : Expr}
    (h : Derives content n ts e) (hatom : e.stratum = 9) : Derives content 9 ts e := by
  induction h with
  | number h => exact .number h
  | ident h hname => exact .ident h hname
  | word h => exact .word h
  | emptyString ho hc => exact .emptyString ho hc
  | string ho hb hc => exact .string ho hb hc
  | paren ho hc h _ => exact .paren ho hc h
  | binary hop =>
    have := stratum_of_binary hop
    simp only [stratum, hop, Option.getD_some] at hatom
    omega
  | lift _ ih => exact ih hatom
  | _ => simp [stratum] at hatom

theorem variableToken?_eq_some {e : Expr} {target : Token} :
    variableToken? e = some target ↔ e = .ident target := by
  cases e <;> simp [variableToken?]

theorem callee_eq_ok {opening c : Token} {e : Expr} :
    callee opening e = .ok c ↔ IsCallee c e := by
  cases e with
  | ident token => simp [callee, IsCallee]
  | word token => by_cases h : token.kind.isObjectWord = true <;> simp [callee, IsCallee, h, failAt]
  | _ => simp [callee, IsCallee, failAt]

theorem IsCallee.stratum_eq {callee : Token} {e : Expr} (h : IsCallee callee e) : e.stratum = 9 :=
  h.spell_eq.2

theorem expect_eq_ok {final : Token} {kind : TokenKind} {tokens rest : List Token} :
    expect final kind tokens = .ok rest ↔ ∃ t, t.kind = kind ∧ tokens = t :: rest := by
  cases tokens with
  | nil => simp [expect, failAt]
  | cons t tokens =>
    by_cases h : t.kind = kind
    · simp only [expect, if_pos h]
      constructor
      · rintro ⟨⟩
        exact ⟨t, h, rfl⟩
      · rintro ⟨_, _, ⟨⟩⟩
        rfl
    · simp only [expect, if_neg h, failAt]
      constructor
      · intro hf
        cases hf
      · rintro ⟨_, hkind, ⟨⟩⟩
        exact absurd hkind h

/-! ## Soundness -/

/-- The three tokens of a string, or two if it is empty, spell it. -/
theorem derives_readString {opening : Token} (ho : opening.kind = .quote) {tokens rest : List Token}
    {e : Expr} (h : readString opening tokens = .ok (e, rest)) :
    ∃ used, opening :: tokens = used ++ rest ∧ Derives AnyContent 9 used e := by
  unfold readString at h
  split at h
  next => cases h
  next body tokens =>
    split at h
    next hempty =>
      cases h
      exact ⟨[opening, body], rfl, .emptyString ho hempty⟩
    next hbody =>
      split at h
      next closing tokens =>
        split at h
        next hclosing =>
          cases h
          exact ⟨[opening, body, closing], rfl, .string ho hbody hclosing⟩
        next => cases h
      next => cases h

/-- What the readers with some fuel take off the front derives the tree that they answer. -/
structure SoundReaders (fuel : Nat) : Prop where
  from_ : ∀ {final : Token} {least : Nat} {tokens : List Token} {e : Expr} {rest : List Token},
    4 * tokens.length + 1 ≤ fuel → least ≤ 7 → readFrom final fuel least tokens = .ok (e, rest) →
    ∃ used, tokens = used ++ rest ∧ Derives AnyContent (min (least + 1) 7) used e ∧ Stops least rest
  operand : ∀ {final t : Token} {tokens : List Token} {e : Expr} {rest : List Token},
    4 * tokens.length + 2 ≤ fuel → readOperand final fuel t tokens = .ok (e, rest) →
    ∃ used n, t :: tokens = used ++ rest ∧ 7 ≤ n ∧ Derives AnyContent n used e ∧ Fits n rest
  operators : ∀ {final : Token} {least n : Nat} {l tokens : List Token} {left e : Expr}
      {rest : List Token},
    4 * tokens.length ≤ fuel → least ≤ 7 → min (least + 1) 7 ≤ n → Derives AnyContent n l left →
    Fits n tokens → readOperators final fuel least left tokens = .ok (e, rest) →
    ∃ used, tokens = used ++ rest ∧ Derives AnyContent (min (least + 1) 7) (l ++ used) e
      ∧ Stops least rest
  operator : ∀ {final t : Token} {n : Nat} {l tokens : List Token} {left e : Expr}
      {rest : List Token},
    4 * tokens.length + 3 ≤ fuel → 0 < t.kind.infixPower → min t.kind.infixPower 8 ≤ n →
    Derives AnyContent n l left → readOperator final fuel left t tokens = .ok (e, rest) →
    ∃ used, tokens = used ++ rest
      ∧ Derives AnyContent (min t.kind.infixPower 8) (l ++ t :: used) e
      ∧ Fits (min t.kind.infixPower 8) rest
  arguments : ∀ {final opening : Token} {tokens : List Token} {args : List Expr}
      {rest : List Token},
    4 * tokens.length + 2 ≤ fuel → readArguments final fuel opening tokens = .ok (args, rest) →
    ∃ first value more closing, tokens = first ++ Argument.spelled more ++ closing :: rest
      ∧ closing.kind = .rightParen ∧ args = value :: more.map (·.value)
      ∧ Derives AnyContent 1 first value ∧ (∀ a ∈ more, a.separator.kind = .comma)
      ∧ ∀ a ∈ more, Derives AnyContent 1 a.tokens a.value

/-- An operand and the operators behind it. -/
theorem SoundReaders.next_from {fuel : Nat} (ih : SoundReaders fuel) {final : Token} {least : Nat}
    {tokens : List Token} {e : Expr} {rest : List Token} (hfuel : 4 * tokens.length + 1 ≤ fuel + 1)
    (hleast : least ≤ 7) (h : readFrom final (fuel + 1) least tokens = .ok (e, rest)) :
    ∃ used, tokens = used ++ rest ∧ Derives AnyContent (min (least + 1) 7) used e
      ∧ Stops least rest := by
  cases tokens with
  | nil =>
    simp only [readFrom, failAt] at h
    cases h
  | cons t tokens =>
    rw [readFrom] at h
    obtain ⟨⟨left, behind⟩, hleft, h⟩ := bind_eq_ok.1 h
    simp only [List.length_cons] at hfuel
    obtain ⟨used, n, htokens, hn, hderives, hfits⟩ := ih.operand (by omega) hleft
    have hlen := congrArg List.length htokens
    have hne := List.length_pos_iff.2 hderives.ne_nil
    simp only [List.length_cons, List.length_append] at hlen
    obtain ⟨more, hbehind, hall, hstops⟩ :=
      ih.operators (by omega) hleast (by omega) hderives hfits h
    exact ⟨used ++ more, by rw [htokens, hbehind, List.append_assoc], hall, hstops⟩

theorem SoundReaders.next_operand {fuel : Nat} (ih : SoundReaders fuel) {final t : Token}
    {tokens : List Token} {e : Expr} {rest : List Token} (hfuel : 4 * tokens.length + 2 ≤ fuel + 1)
    (h : readOperand final (fuel + 1) t tokens = .ok (e, rest)) :
    ∃ used n, t :: tokens = used ++ rest ∧ 7 ≤ n ∧ Derives AnyContent n used e ∧ Fits n rest := by
  -- Operands by themselves are of stratum 9, where everything fits.
  have htight (used : List Token) (hused : t :: tokens = used ++ rest)
      (hderives : Derives AnyContent 9 used e) :
      ∃ used n, t :: tokens = used ++ rest ∧ 7 ≤ n ∧ Derives AnyContent n used e ∧ Fits n rest :=
    ⟨used, 9, hused, by omega, hderives, fits_of_le (by omega) rest⟩
  -- a prefix operator: its operand is of the stratum of signs
  by_cases hsign : t.kind.isSignOperator = true
  · rw [readOperand_sign hsign] at h
    obtain ⟨⟨operand, behind⟩, hoperand, h⟩ := bind_eq_ok.1 h
    cases h
    obtain ⟨used, rfl, hused, hstops⟩ := ih.from_ (by omega) (by omega) hoperand
    exact ⟨t :: used, 7, rfl, by omega, .sign hsign hused, hstops.fits (by omega)⟩
  by_cases hstep : t.kind.isStepOperator = true
  · rw [readOperand_step hstep] at h
    obtain ⟨⟨operand, behind⟩, hoperand, htarget⟩ := bind_eq_ok.1 h
    obtain ⟨used, rfl, hused, hstops⟩ := ih.from_ (by omega) (by omega) hoperand
    split at htarget
    next target hident =>
      cases htarget
      obtain rfl := variableToken?_eq_some.1 hident
      exact ⟨t :: used, 7, rfl, by omega, .stepBefore hstep (hused.atom rfl), hstops.fits (by omega)⟩
    next => cases htarget
  -- otherwise the operand is closed by itself: a word, a numeral, a name, a string or parentheses
  by_cases hword : t.kind.isOperandWord = true
  · rw [readOperand_word hword] at h
    cases h
    exact htight [t] rfl (.word hword)
  rw [readOperand] at h
  split at h
  case h_1 hkind =>
    cases h
    exact htight [t] rfl (.number hkind)
  case h_2 hkind =>
    split at h
    next hname =>
      cases h
      exact htight [t] rfl (.ident hkind hname)
    next => cases h
  case h_11 hkind =>
    obtain ⟨used, hused, hderives⟩ := derives_readString hkind h
    exact htight used hused hderives
  case h_18 hkind =>
    obtain ⟨⟨inner, behind⟩, hinner, h⟩ := bind_eq_ok.1 h
    obtain ⟨rest', hexpect, h⟩ := bind_eq_ok.1 h
    cases h
    obtain ⟨closing, hclosing, rfl⟩ := expect_eq_ok.1 hexpect
    obtain ⟨used, rfl, hused, -⟩ := ih.from_ (by omega) (by omega) hinner
    exact htight (t :: (used ++ [closing])) (by simp) (.paren hkind hclosing hused)
  case h_19 => cases h
  -- the kinds left have been dealt with above
  all_goals
    next hkind =>
      simp [hkind, TokenKind.isSignOperator, TokenKind.isStepOperator, TokenKind.isOperandWord]
        at hsign hstep hword

/-- Every operator that binds tighter than the place makes the left side longer. -/
theorem SoundReaders.next_operators {fuel : Nat} (ih : SoundReaders fuel) {final : Token}
    {least n : Nat} {l tokens : List Token} {left e : Expr} {rest : List Token}
    (hfuel : 4 * tokens.length ≤ fuel + 1) (hleast : least ≤ 7) (hn : min (least + 1) 7 ≤ n)
    (hl : Derives AnyContent n l left) (hfits : Fits n tokens)
    (h : readOperators final (fuel + 1) least left tokens = .ok (e, rest)) :
    ∃ used, tokens = used ++ rest ∧ Derives AnyContent (min (least + 1) 7) (l ++ used) e
      ∧ Stops least rest := by
  cases tokens with
  | nil =>
    simp only [readOperators] at h
    cases h
    exact ⟨[], rfl, by simpa using hl.lower hn, by simp [Stops]⟩
  | cons t tokens =>
    rw [readOperators] at h
    split at h
    -- the next token does not bind tightly enough: the left side is the whole
    next hpower =>
      cases h
      exact ⟨[], rfl, by simpa using hl.lower hn, by simpa [Stops] using hpower⟩
    next hpower =>
      -- an operator makes the left side longer, and reading goes on behind it
      obtain ⟨⟨left', behind⟩, hleft, h⟩ := bind_eq_ok.1 h
      simp only [List.length_cons] at hfuel
      obtain ⟨used, htokens, hderives, hfits'⟩ :=
        ih.operator (by omega) (by omega) (hfits t rfl).1 hl hleft
      have hlen := congrArg List.length htokens
      simp only [List.length_append] at hlen
      obtain ⟨more, hbehind, hall, hstops⟩ :=
        ih.operators (by omega) hleast (by omega) hderives hfits' h
      refine ⟨t :: (used ++ more), ?_, ?_, hstops⟩
      · rw [htokens, hbehind, List.cons_append, List.append_assoc]
      · simpa using hall

theorem SoundReaders.next_operator {fuel : Nat} (ih : SoundReaders fuel) {final t : Token} {n : Nat}
    {l tokens : List Token} {left e : Expr} {rest : List Token}
    (hfuel : 4 * tokens.length + 3 ≤ fuel + 1) (hpos : 0 < t.kind.infixPower)
    (hn : min t.kind.infixPower 8 ≤ n) (hl : Derives AnyContent n l left)
    (h : readOperator final (fuel + 1) left t tokens = .ok (e, rest)) :
    ∃ used, tokens = used ++ rest ∧ Derives AnyContent (min t.kind.infixPower 8) (l ++ t :: used) e
      ∧ Fits (min t.kind.infixPower 8) rest := by
  obtain hparen | hbracket | hstep | hassign | ⟨p, hp⟩ := TokenKind.operator_cases hpos
  · -- a call: what is called is a word of the highest stratum
    have hpower : min t.kind.infixPower 8 = 8 := by rw [hparen]; rfl
    rw [hpower] at hn ⊢
    rw [readOperator_call hparen] at h
    obtain ⟨c, hc, h⟩ := bind_eq_ok.1 h
    have hcallee := callee_eq_ok.1 hc
    have hatom := hl.atom hcallee.stratum_eq
    split at h
    -- no arguments
    next hnext =>
      cases h
      obtain ⟨closing, tokens, rfl⟩ : ∃ closing more, tokens = closing :: more :=
        List.exists_cons_of_ne_nil (by rintro rfl; simp at hnext)
      have hclosing : closing.kind = .rightParen := by simpa using hnext
      exact ⟨[closing], rfl, .callEmpty hparen hclosing hcallee hatom, fits_of_le (Nat.le_refl 8) _⟩
    next =>
      obtain ⟨⟨args, behind⟩, hargs, h⟩ := bind_eq_ok.1 h
      cases h
      obtain ⟨first, value, more, closing, rfl, hclosing, hvalues, hfirst, hcommas, hmore⟩ :=
        ih.arguments (by omega) hargs
      subst hvalues
      refine ⟨first ++ Argument.spelled more ++ [closing], by simp, ?_, fits_of_le (Nat.le_refl 8) _⟩
      exact .call hparen hclosing hcallee hatom hfirst hcommas hmore
  · -- a subscript
    have hpower : min t.kind.infixPower 8 = 8 := by rw [hbracket]; rfl
    rw [hpower] at hn ⊢
    rw [readOperator_index hbracket] at h
    obtain ⟨⟨subscript, behind⟩, hsub, h⟩ := bind_eq_ok.1 h
    obtain ⟨rest', hexpect, h⟩ := bind_eq_ok.1 h
    cases h
    obtain ⟨closing, hclosing, rfl⟩ := expect_eq_ok.1 hexpect
    obtain ⟨inner, rfl, hinner, -⟩ := ih.from_ (by omega) (by omega) hsub
    refine ⟨inner ++ [closing], by simp, ?_, fits_of_le (Nat.le_refl 8) _⟩
    exact .index hbracket hclosing (hl.lower hn) hinner
  · -- a step behind a variable
    have hpower : min t.kind.infixPower 8 = 8 := by rw [TokenKind.infixPower_of_step hstep]; rfl
    rw [hpower] at hn ⊢
    rw [readOperator_step hstep] at h
    split at h
    next target htarget =>
      cases h
      obtain rfl := variableToken?_eq_some.1 htarget
      exact ⟨[], rfl, .stepAfter hstep (hl.atom rfl), fits_of_le (Nat.le_refl 8) _⟩
    next => cases h
  · -- an assignment: its right side is of the lowest stratum, so assignments nest to the right
    have hpower : min t.kind.infixPower 8 = 1 := by
      rw [TokenKind.infixPower_of_assignment hassign]; rfl
    rw [hpower] at hn ⊢
    rw [readOperator_assign hassign] at h
    split at h
    next target htarget =>
      obtain rfl := variableToken?_eq_some.1 htarget
      obtain ⟨⟨value, behind⟩, hvalue, h⟩ := bind_eq_ok.1 h
      cases h
      obtain ⟨used, rfl, hused, hstops⟩ := ih.from_ (by omega) (by omega) hvalue
      exact ⟨used, rfl, .assign hassign (hl.atom rfl) hused, hstops.fits (by omega)⟩
    next => cases h
  · -- a binary operator: its right side binds tighter, so the operators of a stratum nest to the left
    have hbounds := stratum_of_binary hp
    have hpower : min t.kind.infixPower 8 = p := by
      rw [TokenKind.infixPower_of_stratum hp]
      omega
    rw [hpower] at hn ⊢
    rw [readOperator_binary hp] at h
    obtain ⟨⟨right, behind⟩, hright, h⟩ := bind_eq_ok.1 h
    cases h
    obtain ⟨used, rfl, hused, hstops⟩ := ih.from_ (by omega) (by omega) hright
    exact ⟨used, rfl, .binary hp (hl.lower hn) (hused.lower (by omega)), hstops.fits (by omega)⟩

/-- Arguments with commas between them up to the parenthesis. -/
theorem SoundReaders.next_arguments {fuel : Nat} (ih : SoundReaders fuel) {final opening : Token}
    {tokens : List Token} {args : List Expr} {rest : List Token}
    (hfuel : 4 * tokens.length + 2 ≤ fuel + 1)
    (h : readArguments final (fuel + 1) opening tokens = .ok (args, rest)) :
    ∃ first value more closing, tokens = first ++ Argument.spelled more ++ closing :: rest
      ∧ closing.kind = .rightParen ∧ args = value :: more.map (·.value)
      ∧ Derives AnyContent 1 first value ∧ (∀ a ∈ more, a.separator.kind = .comma)
      ∧ ∀ a ∈ more, Derives AnyContent 1 a.tokens a.value := by
  rw [readArguments] at h
  obtain ⟨⟨value, behind⟩, hvalue, hbehind⟩ := bind_eq_ok.1 h
  -- the first argument reaches to the comma or to the parenthesis
  obtain ⟨first, rfl, hfirst, -⟩ := ih.from_ (by omega) (by omega) hvalue
  dsimp only at hbehind
  split at hbehind
  next => cases hbehind
  next t behind =>
    split at hbehind
    -- no more arguments
    next hclosing =>
      cases hbehind
      exact ⟨first, value, [], t, by simp [Argument.spelled], hclosing, rfl, hfirst, by simp, by simp⟩
    next =>
      split at hbehind
      next hcomma =>
        obtain ⟨⟨args, behind'⟩, hargs, heq⟩ := bind_eq_ok.1 hbehind
        cases heq
        simp only [List.length_append, List.length_cons] at hfuel
        -- the others are those of the recursive call, with the comma in front
        obtain ⟨second, value', more, closing, rfl, hclosing, hvalues, hsecond, hcommas, hmore⟩ :=
          ih.arguments (by omega) hargs
        subst hvalues
        refine ⟨first, value, ⟨t, second, value'⟩ :: more, closing, by simp [Argument.spelled],
          hclosing, rfl, hfirst, ?_, ?_⟩
        · intro a ha
          obtain rfl | ha := List.mem_cons.1 ha
          · exact hcomma
          · exact hcommas a ha
        · intro a ha
          obtain rfl | ha := List.mem_cons.1 ha
          · exact hsecond
          · exact hmore a ha
      next => cases hbehind

/-- By induction on the fuel; each reader has its step lemma above. -/
theorem soundReaders (fuel : Nat) : SoundReaders fuel := by
  induction fuel with
  | zero =>
    refine ⟨?_, ?_, ?_, ?_, ?_⟩
    · intro _ _ _ _ _ hfuel
      omega
    · intro _ _ _ _ _ hfuel
      omega
    · -- Without tokens there is nothing to read, and no call is needed.
      intro final least n l tokens left e rest hfuel _ hn hl _ h
      obtain rfl : tokens = [] := List.length_eq_zero_iff.1 (by omega)
      simp only [readOperators] at h
      cases h
      exact ⟨[], rfl, by simpa using hl.lower hn, by simp [Stops]⟩
    · intro _ _ _ _ _ _ _ _ hfuel
      omega
    · intro _ _ _ _ _ hfuel
      omega
  | succ fuel ih =>
    exact ⟨ih.next_from, ih.next_operand, ih.next_operators, ih.next_operator, ih.next_arguments⟩

/-! ## Completeness -/

/-- Reading the tokens at any looser place answers the tree, with the operators behind it still to
come. -/
def ReadsThrough (n : Nat) (l : List Token) (e : Expr) : Prop :=
  ∀ (final : Token) (least fuel : Nat) (rest : List Token), least ≤ 7 → min least 6 < n →
    Fits n rest → 4 * (l ++ rest).length + 1 ≤ fuel →
    ∃ more, 4 * rest.length ≤ more
      ∧ readFrom final fuel least (l ++ rest) = readOperators final more least e rest

/-- Reading stops where nothing binds tighter, whatever fuel is left. -/
theorem readOperators_stop {final : Token} {fuel least : Nat} {e : Expr} {rest : List Token}
    (h : Stops least rest) : readOperators final fuel least e rest = .ok (e, rest) := by
  cases fuel with
  | zero => rw [readOperators]
  | succ fuel =>
    cases rest with
    | nil => simp only [readOperators]
    | cons t rest =>
      rw [readOperators]
      exact if_pos (h t rfl)

theorem ReadsThrough.whole {n least fuel : Nat} {l rest : List Token} {e : Expr}
    (h : ReadsThrough n l e) (final : Token) (hleast : least ≤ 7) (hn : min least 6 < n)
    (hstops : Stops least rest) (hfuel : 4 * (l ++ rest).length + 1 ≤ fuel) :
    readFrom final fuel least (l ++ rest) = .ok (e, rest) := by
  obtain ⟨more, _, heq⟩ := h final least fuel rest hleast hn (hstops.fits (by omega)) hfuel
  rw [heq, readOperators_stop hstops]

/-- What starts with an operand is read once the operand is. -/
theorem readsThrough_operand {n : Nat} {t : Token} {l : List Token} {e : Expr}
    (h : ∀ final fuel rest, Fits n rest → 4 * (l ++ rest).length + 2 ≤ fuel →
      readOperand final fuel t (l ++ rest) = .ok (e, rest)) : ReadsThrough n (t :: l) e := by
  intro final least fuel rest _ _ hfits hfuel
  simp only [List.cons_append, List.length_cons] at hfuel
  obtain ⟨fuel, rfl⟩ : ∃ k, fuel = k + 1 := ⟨fuel - 1, by omega⟩
  refine ⟨fuel, by simp only [List.length_append] at hfuel; omega, ?_⟩
  rw [List.cons_append, readFrom, h final fuel rest hfits (by omega)]
  rfl

/-- An operator behind what is read through. -/
theorem ReadsThrough.operator {m n : Nat} {t : Token} {l inner : List Token} {left e : Expr}
    (hleft : ReadsThrough m l left) (hnm : n ≤ m ∧ 2 ≤ m) (hseven : n ≠ 7)
    (hpower : min t.kind.infixPower 8 = n)
    (h : ∀ final fuel rest, Fits n rest → 4 * (inner ++ rest).length + 3 ≤ fuel →
      readOperator final fuel left t (inner ++ rest) = .ok (e, rest)) :
    ReadsThrough n (l ++ t :: inner) e := by
  intro final least fuel rest hleast hn hfits hfuel
  rw [List.append_assoc] at hfuel ⊢
  have hnext : Fits m (t :: inner ++ rest) := by
    rintro _ ⟨⟩
    omega
  obtain ⟨more, hmore, heq⟩ := hleft final least fuel (t :: inner ++ rest) hleast (by omega) hnext hfuel
  simp only [List.cons_append, List.length_cons] at hmore
  obtain ⟨more, rfl⟩ : ∃ k, more = k + 1 := ⟨more - 1, by omega⟩
  refine ⟨more, by simp only [List.length_append] at hmore; omega, ?_⟩
  rw [heq, List.cons_append, readOperators, if_neg (by omega), h final more rest hfits (by omega)]
  rfl

/-- An expression in front of a token that binds nothing is read up to it. -/
theorem ReadsThrough.upTo {l rest : List Token} {e : Expr} {closing : Token} {fuel : Nat}
    (h : ReadsThrough 1 l e) (final : Token) (hclosing : closing.kind.infixPower = 0)
    (hfuel : 4 * (l ++ closing :: rest).length + 1 ≤ fuel) :
    readFrom final fuel 0 (l ++ closing :: rest) = .ok (e, closing :: rest) := by
  have hstops : Stops 0 (closing :: rest) := by
    rintro _ ⟨⟩
    omega
  exact h.whole final (by omega) (by omega) hstops hfuel

theorem expect_cons {final t : Token} {kind : TokenKind} {rest : List Token} (h : t.kind = kind) :
    expect final kind (t :: rest) = .ok rest :=
  expect_eq_ok.2 ⟨t, h, rfl⟩

/-- Arguments that are read through are read up to the closing parenthesis. -/
theorem readArguments_complete {more : List Argument} {first rest : List Token} {value : Expr}
    {closing : Token} (hfirst : ReadsThrough 1 first value) (hclosing : closing.kind = .rightParen)
    (hseps : ∀ a ∈ more, a.separator.kind = .comma)
    (hmore : ∀ a ∈ more, ReadsThrough 1 a.tokens a.value) (final opening : Token) {fuel : Nat}
    (hfuel : 4 * (first ++ Argument.spelled more ++ closing :: rest).length + 2 ≤ fuel) :
    readArguments final fuel opening (first ++ Argument.spelled more ++ closing :: rest)
      = .ok (value :: more.map (·.value), rest) := by
  induction more generalizing first value fuel with
  | nil =>
    obtain ⟨fuel, rfl⟩ : ∃ k, fuel = k + 1 := ⟨fuel - 1, by omega⟩
    have htokens : first ++ Argument.spelled [] ++ closing :: rest = first ++ closing :: rest := by
      simp [Argument.spelled]
    rw [htokens] at hfuel ⊢
    -- nothing binds to the parenthesis, so the argument ends in front of it
    have hpower : closing.kind.infixPower = 0 := by rw [hclosing]; rfl
    rw [readArguments, hfirst.upTo final hpower (by omega)]
    exact if_pos hclosing
  | cons a more ih =>
    obtain ⟨fuel, rfl⟩ : ∃ k, fuel = k + 1 := ⟨fuel - 1, by omega⟩
    -- the same with the comma, behind which the other arguments are read
    have hcomma : a.separator.kind = .comma := hseps a (by simp)
    have hpower : a.separator.kind.infixPower = 0 := by rw [hcomma]; rfl
    have htokens : first ++ Argument.spelled (a :: more) ++ closing :: rest
        = first ++ a.separator :: (a.tokens ++ Argument.spelled more ++ closing :: rest) := by
      simp [Argument.spelled]
    rw [htokens] at hfuel ⊢
    have hrest := ih (hmore a (by simp)) (fun b hb => hseps b (by simp [hb]))
      (fun b hb => hmore b (by simp [hb]))
      (show 4 * (a.tokens ++ Argument.spelled more ++ closing :: rest).length + 2 ≤ fuel by
        rw [List.length_append, List.length_cons] at hfuel; omega)
    rw [readArguments, hfirst.upTo final hpower (by omega)]
    simp only [bind, Except.bind, hcomma, hrest, if_true, reduceCtorEq, if_false, List.map_cons]

/-- Behind the opening parenthesis of a call with arguments stands no closing one. -/
theorem Derives.head_ne_closing {content : TokenKind → Prop} {n : Nat} {ts : List Token} {e : Expr}
    (h : Derives content n ts e) (rest : List Token) :
    (ts ++ rest).head?.map (·.kind) ≠ some .rightParen := by
  obtain ⟨t, more, rfl, hkind⟩ := h.head
  intro hclosing
  simp only [List.cons_append, List.head?_cons, Option.map_some, Option.some.injEq] at hclosing
  rw [hclosing] at hkind
  cases hkind

theorem Derives.readsThrough {content : TokenKind → Prop}
    (hcontent : ∀ kind, content kind → kind ≠ .quote) {n : Nat} {ts : List Token} {e : Expr}
    (h : Derives content n ts e) : ReadsThrough n ts e := by
  -- what reading an operand does is stated for everything that may follow it; an operator is read
  -- after its left side, whose own reading is the induction hypothesis
  induction h with
  | number h =>
    refine readsThrough_operand fun final fuel rest _ hfuel => ?_
    obtain ⟨fuel, rfl⟩ : ∃ k, fuel = k + 1 := ⟨fuel - 1, by omega⟩
    simp [readOperand, h]
  | ident h hname =>
    refine readsThrough_operand fun final fuel rest _ hfuel => ?_
    obtain ⟨fuel, rfl⟩ : ∃ k, fuel = k + 1 := ⟨fuel - 1, by omega⟩
    simp [readOperand, h, hname]
  | word h =>
    refine readsThrough_operand fun final fuel rest _ hfuel => ?_
    obtain ⟨fuel, rfl⟩ : ∃ k, fuel = k + 1 := ⟨fuel - 1, by omega⟩
    exact readOperand_word h
  | emptyString ho hc =>
    refine readsThrough_operand fun final fuel rest _ hfuel => ?_
    obtain ⟨fuel, rfl⟩ : ∃ k, fuel = k + 1 := ⟨fuel - 1, by omega⟩
    simp [readOperand, ho, readString, hc]
  | string ho hb hc =>
    refine readsThrough_operand fun final fuel rest _ hfuel => ?_
    obtain ⟨fuel, rfl⟩ : ∃ k, fuel = k + 1 := ⟨fuel - 1, by omega⟩
    simp [readOperand, ho, readString, hcontent _ hb, hc]
  | @paren opening closing ts e ho hc _ ih =>
    refine readsThrough_operand fun final fuel rest _ hfuel => ?_
    obtain ⟨fuel, rfl⟩ : ∃ k, fuel = k + 1 := ⟨fuel - 1, by omega⟩
    rw [List.append_assoc, List.singleton_append] at hfuel ⊢
    rw [readOperand_paren ho, ih.upTo final (by rw [hc]; rfl) (by omega)]
    simp only [bind, Except.bind, expect_cons hc]
  | @stepAfter op target ts hop _ ih =>
    have hpower := TokenKind.infixPower_of_step hop
    refine ih.operator (by omega) (by omega) (by rw [hpower]; rfl) fun final fuel rest _ hfuel => ?_
    obtain ⟨fuel, rfl⟩ : ∃ k, fuel = k + 1 := ⟨fuel - 1, by omega⟩
    rw [readOperator_step hop]
    rfl
  | @index opening closing ts inner target subscript ho hc _ _ iht ihs =>
    refine iht.operator (by omega) (by omega) (by rw [ho]; rfl) fun final fuel rest _ hfuel => ?_
    obtain ⟨fuel, rfl⟩ : ∃ k, fuel = k + 1 := ⟨fuel - 1, by omega⟩
    rw [List.append_assoc, List.singleton_append] at hfuel ⊢
    rw [readOperator_index ho, ihs.upTo final (by rw [hc]; rfl) (by omega)]
    simp only [bind, Except.bind, expect_cons hc]
  | @callEmpty opening closing callee ts e ho hc hcallee _ ih =>
    refine ih.operator (by omega) (by omega) (by rw [ho]; rfl) fun final fuel rest _ hfuel => ?_
    obtain ⟨fuel, rfl⟩ : ∃ k, fuel = k + 1 := ⟨fuel - 1, by omega⟩
    rw [readOperator_call ho, callee_eq_ok.2 hcallee]
    simp [bind, Except.bind, hc]
  | @call opening closing callee ts first e value more ho hc hcallee _ hfirst hseps _ ih ihfirst ihmore =>
    refine ih.operator (by omega) (by omega) (by rw [ho]; rfl) fun final fuel rest _ hfuel => ?_
    obtain ⟨fuel, rfl⟩ : ∃ k, fuel = k + 1 := ⟨fuel - 1, by omega⟩
    rw [List.append_assoc, List.singleton_append] at hfuel ⊢
    -- an argument cannot begin with the closing parenthesis, so the call is not taken for one without
    -- arguments
    have hnext : ¬ (first ++ Argument.spelled more ++ closing :: rest).head?.map (·.kind)
        = some .rightParen := by
      rw [List.append_assoc]
      exact hfirst.head_ne_closing _
    have hargs := readArguments_complete ihfirst hc hseps ihmore final opening
      (show 4 * (first ++ Argument.spelled more ++ closing :: rest).length + 2 ≤ fuel by omega)
    rw [readOperator_call ho, callee_eq_ok.2 hcallee]
    simp only [bind, Except.bind, if_neg hnext, hargs]
  | @sign op ts e hop _ ih =>
    refine readsThrough_operand fun final fuel rest hfits hfuel => ?_
    obtain ⟨fuel, rfl⟩ : ∃ k, fuel = k + 1 := ⟨fuel - 1, by omega⟩
    rw [readOperand_sign hop, ih.whole final (by omega) (by omega) hfits.stops (by omega)]
    rfl
  | @stepBefore op target ts hop _ ih =>
    refine readsThrough_operand fun final fuel rest hfits hfuel => ?_
    obtain ⟨fuel, rfl⟩ : ∃ k, fuel = k + 1 := ⟨fuel - 1, by omega⟩
    rw [readOperand_step hop, ih.whole final (by omega) (by omega) hfits.stops (by omega)]
    rfl
  | @binary op n l r left right hop _ _ ihl ihr =>
    have hn := stratum_of_binary hop
    have hpower := TokenKind.infixPower_of_stratum hop
    refine ihl.operator (by omega) (by omega) (by rw [hpower]; omega)
      fun final fuel rest hfits hfuel => ?_
    obtain ⟨fuel, rfl⟩ : ∃ k, fuel = k + 1 := ⟨fuel - 1, by omega⟩
    -- what follows a binary operator does not bind tighter than it
    have hstops : Stops n rest := fun t ht => by have := (hfits t ht).1; omega
    rw [readOperator_binary hop, ihr.whole final (by omega) (by omega) hstops (by omega)]
    rfl
  | @assign op target l r value hop _ _ iht ihv =>
    have hpower := TokenKind.infixPower_of_assignment hop
    refine iht.operator (by omega) (by omega) (by rw [hpower]; rfl)
      fun final fuel rest hfits hfuel => ?_
    obtain ⟨fuel, rfl⟩ : ∃ k, fuel = k + 1 := ⟨fuel - 1, by omega⟩
    -- nothing binds looser than an assignment, so its right side takes all
    have hstops : Stops 0 rest := fun t ht => by have := hfits t ht; omega
    rw [readOperator_assign hop]
    simp only [variableToken?]
    rw [ihv.whole final (by omega) (by omega) hstops (by omega)]
    rfl
  | lift _ ih =>
    intro final least fuel rest hleast hn hfits hfuel
    exact ih final least fuel rest hleast (by omega) 
      (fun t ht => by have := hfits t ht; omega) hfuel

/-! ## Exactly the grammar -/

/-- The reader accepts exactly what the grammar derives, and gives the tree of the derivation. -/
theorem parse_eq_ok_iff {ts : List Token} {e : Expr} :
    parse ts = .ok e ↔ Derives AnyContent 1 ts e := by
  constructor
  · intro h
    unfold parse at h
    split at h
    next => cases h
    next final _ =>
      split at h
      next => cases h
      next e' hread =>
        cases h
        obtain ⟨used, hused, hderives, -⟩ :=
          (soundReaders (4 * ts.length + 4)).from_ (by omega) (by omega) hread
        rw [List.append_nil] at hused
        exact hused ▸ hderives
      next => cases h
  · intro h
    obtain ⟨final, hfinal⟩ := Option.isSome_iff_exists.1 (List.getLast?_isSome.2 h.ne_nil)
    have hread : readFrom final (4 * ts.length + 4) 0 (ts ++ []) = .ok (e, []) :=
      (h.readsThrough fun _ hkind => hkind).whole final (by omega) (by omega) (by simp [Stops])
        (by simp)
    rw [List.append_nil] at hread
    simp [parse, hfinal, hread]

/-- Somewhere quotes enclose a single token that is no text. -/
def LooseString (ts : List Token) : Prop :=
  ∃ opening body closing, [opening, body, closing] <:+: ts ∧ opening.kind = .quote
    ∧ closing.kind = .quote ∧ body.kind ≠ .quote ∧ body.kind ≠ .text

theorem LooseString.mono {part ts : List Token} (h : LooseString part) (hpart : part <:+: ts) :
    LooseString ts := by
  obtain ⟨opening, body, closing, hin, hkinds⟩ := h
  exact ⟨opening, body, closing, hin.trans hpart, hkinds⟩

/-- Without a loose string every string holds a text. -/
theorem Derives.strict {n : Nat} {ts : List Token} {e : Expr} (h : Derives AnyContent n ts e)
    (hstrict : ¬ LooseString ts) : Derives (· = .text) n ts e := by
  -- a part of tokens without a loose string has none
  have hpart {part whole : List Token} (hwhole : ¬ LooseString whole) (hin : part <:+: whole) :
      ¬ LooseString part := fun hloose => hwhole (hloose.mono hin)
  induction h with
  | number h => exact .number h
  | ident h hname => exact .ident h hname
  | word h => exact .word h
  | emptyString ho hc => exact .emptyString ho hc
  -- the one rule where content matters: its three tokens would be a loose string
  | @string opening body closing ho hb hc =>
    refine .string ho (Decidable.byContradiction fun htext => ?_) hc
    exact hstrict ⟨opening, body, closing, List.infix_refl _, ho, hc, hb, htext⟩
  | @paren opening closing ts e ho hc _ ih =>
    exact .paren ho hc (ih (hpart hstrict ⟨[opening], [closing], by simp⟩))
  | @stepAfter op target ts hop _ ih =>
    exact .stepAfter hop (ih (hpart hstrict ⟨[], [op], by simp⟩))
  | @index opening closing ts inner target subscript ho hc _ _ iht ihs =>
    exact .index ho hc (iht (hpart hstrict ⟨[], opening :: (inner ++ [closing]), by simp⟩))
      (ihs (hpart hstrict ⟨ts ++ [opening], [closing], by simp⟩))
  | @callEmpty opening closing callee ts e ho hc hcallee _ ih =>
    exact .callEmpty ho hc hcallee (ih (hpart hstrict ⟨[], [opening, closing], by simp⟩))
  | @call opening closing callee ts first e value more ho hc hcallee _ _ hseps _ ih ihfirst ihmore =>
    refine .call ho hc hcallee ?_ ?_ hseps ?_
    · exact ih (hpart hstrict ⟨[], opening :: (first ++ Argument.spelled more ++ [closing]), by simp⟩)
    · exact ihfirst (hpart hstrict ⟨ts ++ [opening], Argument.spelled more ++ [closing], by simp⟩)
    · intro a ha
      obtain ⟨before, behind, rfl⟩ := List.append_of_mem ha
      refine ihmore a ha (hpart hstrict ⟨ts ++ opening :: (first ++ Argument.spelled before
        ++ [a.separator]), Argument.spelled behind ++ [closing], ?_⟩)
      simp [Argument.spelled]
  | @sign op ts e hop _ ih => exact .sign hop (ih (hpart hstrict ⟨[op], [], by simp⟩))
  | @stepBefore op target ts hop _ ih =>
    exact .stepBefore hop (ih (hpart hstrict ⟨[op], [], by simp⟩))
  | @binary op n l r left right hop _ _ ihl ihr =>
    exact .binary hop (ihl (hpart hstrict ⟨[], op :: r, by simp⟩))
      (ihr (hpart hstrict ⟨l ++ [op], [], by simp⟩))
  | @assign op target l r value hop _ _ iht ihv =>
    exact .assign hop (iht (hpart hstrict ⟨[], op :: r, by simp⟩))
      (ihv (hpart hstrict ⟨l ++ [op], [], by simp⟩))
  | lift _ ih => exact (ih hstrict).lift

/-- Reading accepts exactly the grammar, with any one token between the quotes of a string; where no
quotes enclose anything but a text it is the grammar whose strings are texts. A tree of the grammar
that is written with as few parentheses as possible is read back, and the tree of an accepted list
holds its tokens in their order, all but those that only group. -/
theorem parse_exactly_grammar (ts : List Token) (e : Expr) :
    (parse ts = .ok e ↔ Derives AnyContent 1 ts e)
      ∧ (¬ LooseString ts → (parse ts = .ok e ↔ Derives (· = .text) 1 ts e))
      ∧ (Derives AnyContent 1 ts e → parse e.spell = .ok e)
      ∧ (parse ts = .ok e → keep ts = e.held) := by
  refine ⟨parse_eq_ok_iff, ?_, ?_, ?_⟩
  · intro hstrict
    rw [parse_eq_ok_iff]
    constructor
    · intro h
      exact h.strict hstrict
    · intro h
      exact h.mono fun kind hkind => by simp [hkind]
  · intro h
    exact parse_eq_ok_iff.2 ((h.spell (by decide)).lower (stratum_pos e))
  · intro h
    have hkeep := (parse_eq_ok_iff.1 h).keep (fun _ hkind => hkind) []
    simpa [Expr.keep] using hkeep

/-- Behind a quote stands the closing one or what the grammar allows. -/
theorem Derives.behind_quote {content : TokenKind → Prop} {n : Nat} {ts : List Token} {e : Expr}
    (h : Derives content n ts e) {rest more : List Token} {t u : Token}
    (hts : ts ++ rest = t :: u :: more) (ht : t.kind = .quote) : u.kind = .quote ∨ content u.kind := by
  induction h generalizing rest more with
  | number h => cases hts; simp [ht] at h
  | ident h _ => cases hts; simp [ht] at h
  | word h => cases hts; simp [ht, TokenKind.isOperandWord] at h
  | emptyString _ hc => cases hts; exact .inl hc
  | string _ hb _ => cases hts; exact .inr hb
  | paren ho _ _ _ =>
    obtain ⟨rfl, -⟩ := List.cons.inj hts
    simp [ht] at ho
  | stepAfter _ _ ih => exact ih (List.append_assoc .. ▸ hts)
  | index _ _ _ _ iht _ => exact iht (List.append_assoc .. ▸ hts)
  | callEmpty _ _ _ _ ih => exact ih (List.append_assoc .. ▸ hts)
  | call _ _ _ _ _ _ _ ih _ _ => exact ih (List.append_assoc .. ▸ hts)
  | sign h _ _ =>
    obtain ⟨rfl, -⟩ := List.cons.inj hts
    simp [ht, TokenKind.isSignOperator] at h
  | stepBefore h _ _ =>
    obtain ⟨rfl, -⟩ := List.cons.inj hts
    simp [ht, TokenKind.isStepOperator] at h
  | binary _ _ _ ihl _ => exact ihl (List.append_assoc .. ▸ hts)
  | assign _ _ _ iht _ => exact iht (List.append_assoc .. ▸ hts)
  | lift _ ih => exact ih hts

/-- Two quotes at the ends of two lines, and a number between them. -/
def brokenString : List Token :=
  [⟨.quote, [0x22], 1, []⟩, ⟨.number, [0x35], 2, []⟩, ⟨.quote, [0x22], 2, []⟩]

/-- A number between quotes is read as a string, which no derivation with texts between quotes
gives; `x = "5"` is read as both grammars have it. -/
theorem brokenString_parsed :
    parse brokenString = .ok (.string ⟨.quote, [0x22], 1, []⟩ [0x35])
      ∧ ¬ Derives (· = .text) 1 brokenString (.string ⟨.quote, [0x22], 1, []⟩ [0x35])
      ∧ LooseString brokenString
      ∧ parse [⟨.text, [0x78], 1, []⟩, signToken .assign, signToken .quote, ⟨.text, [0x35], 0, []⟩,
          signToken .quote]
        = .ok (.assign (signToken .assign) ⟨.text, [0x78], 1, []⟩
          (.string (signToken .quote) [0x35])) := by
  have hstring : Derives AnyContent 9 brokenString (.string ⟨.quote, [0x22], 1, []⟩ [0x35]) :=
    .string rfl (by decide) rfl
  have hassign : Derives AnyContent 1 ([⟨.text, [0x78], 1, []⟩] ++ signToken .assign ::
      [signToken .quote, ⟨.text, [0x35], 0, []⟩, signToken .quote])
      (.assign (signToken .assign) ⟨.text, [0x78], 1, []⟩ (.string (signToken .quote) [0x35])) :=
    .assign rfl (.ident rfl rfl) ((Derives.string rfl (by decide) rfl).lower (by decide))
  refine ⟨(parse_exactly_grammar _ _).1.2 (hstring.lower (by decide)), ?_,
    ⟨_, _, _, List.infix_refl _, by decide⟩, (parse_exactly_grammar _ _).1.2 hassign⟩
  intro hstrict
  obtain hquote | htext := hstrict.behind_quote (List.append_nil brokenString) rfl
  · cases hquote
  · cases htext

end Expr

end TickScript
