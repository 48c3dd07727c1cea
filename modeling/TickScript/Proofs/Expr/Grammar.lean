import TickScript.Expr.Basic

/-!
# The grammar of expressions

`Derives content n ts e` says that the tokens `ts` spell the tree `e` at stratum `n`. The strata are
numbered by how tightly they bind:

* 1: assignment, to the right associative;
* 2 to 6: comparison, `&&` and `||`, sums, products, bitwise operators, each to the left associative;
* 7: the operators in front of an operand;
* 8: steps behind a variable, indexing and calls;
* 9: operands that need no parentheses, and anything in parentheses.

The grammar has its own table of strata and says nothing of how a reader goes about it. What may
stand between the quotes of a string is a parameter: one token whose kind is in `content`.

A tree has many derivations, since parentheses may be put around anything. `spell` picks the one
with the fewest, by asking at each place for the stratum that the place needs, and `Derives.spell`
says that it is a derivation of the tree. `keep` is the opposite view: it drops from a list of
tokens what only groups, and what is left depends on the tree alone, so two sources with the same
tree differ in grouping tokens only.
-/

namespace TickScript

namespace TokenKind

/-- The stratum of an operator between two operands, assignments apart. -/
def stratum? : TokenKind → Option Nat
  | equal | notEqual | lessEqual | greaterEqual | less | greater => some 2
  | andAnd | orOr => some 3
  | plus | minus => some 4
  | star | slash | percent => some 5
  | ampersand | bar | caret | shiftLeft | shiftRight => some 6
  | _ => none

/-- Plain and compound assignments. -/
def isAssignment : TokenKind → Bool
  | assign | plusAssign | minusAssign | starAssign | slashAssign | percentAssign | ampersandAssign
  | barAssign | caretAssign => Bool.true
  | _ => Bool.false

/-- The operators in front of an operand, steps apart. -/
def isSignOperator : TokenKind → Bool
  | plus | minus | tilde | bang => Bool.true
  | _ => Bool.false

/-- `++` and `--`. -/
def isStepOperator : TokenKind → Bool
  | increment | decrement => Bool.true
  | _ => Bool.false

/-- The words that are operands. -/
def isOperandWord : TokenKind → Bool
  | true | false | null | attached | instantiate | delete | attach | detach => Bool.true
  | _ => Bool.false

/-- The kinds of tokens that an operand starts with. -/
def startsOperand (kind : TokenKind) : Bool :=
  kind.isOperandWord || kind.isSignOperator || kind.isStepOperator
    || kind ∈ [number, text, quote, leftParen]

end TokenKind

namespace Expr

/-- An argument behind the first one, with the comma in front of it. -/
structure Argument where
  separator : Token
  tokens : List Token
  value : Expr

/-- The tokens of the arguments behind the first one. -/
def Argument.spelled (more : List Argument) : List Token :=
  more.flatMap fun a => a.separator :: a.tokens

/-- Whether a tree is the callee that stands at a token: a name, or an operation on objects. -/
def IsCallee (callee : Token) : Expr → Prop
  | .ident token => token = callee
  | .word token => token = callee ∧ token.kind.isObjectWord = true
  | _ => False

/-- The tokens spell the tree at a stratum. -/
inductive Derives (content : TokenKind → Prop) : Nat → List Token → Expr → Prop
  /-- A number. -/
  | number {t : Token} : t.kind = .number → Derives content 9 [t] (.number t)
  /-- A name. -/
  | ident {t : Token} : t.kind = .text → isIdentifier t.text = true →
      Derives content 9 [t] (.ident t)
  /-- A word that is a value. -/
  | word {t : Token} : t.kind.isOperandWord = true → Derives content 9 [t] (.word t)
  /-- Two quotes with nothing between them. -/
  | emptyString {opening closing : Token} : opening.kind = .quote → closing.kind = .quote →
      Derives content 9 [opening, closing] (.string opening [])
  /-- Two quotes with one token between them. -/
  | string {opening body closing : Token} : opening.kind = .quote → content body.kind →
      closing.kind = .quote → Derives content 9 [opening, body, closing] (.string opening body.text)
  /-- An expression in parentheses is an operand. -/
  | paren {opening closing : Token} {ts : List Token} {e : Expr} : opening.kind = .leftParen →
      closing.kind = .rightParen → Derives content 1 ts e →
      Derives content 9 (opening :: (ts ++ [closing])) e
  /-- A step behind a variable. -/
  | stepAfter {op target : Token} {ts : List Token} : op.kind.isStepOperator = true →
      Derives content 9 ts (.ident target) → Derives content 8 (ts ++ [op]) (.step op target true)
  /-- An index in brackets. -/
  | index {opening closing : Token} {ts inner : List Token} {target subscript : Expr} :
      opening.kind = .leftBracket → closing.kind = .rightBracket → Derives content 8 ts target →
      Derives content 1 inner subscript →
      Derives content 8 (ts ++ opening :: (inner ++ [closing])) (.index target subscript)
  /-- A call without arguments. -/
  | callEmpty {opening closing callee : Token} {ts : List Token} {e : Expr} :
      opening.kind = .leftParen → closing.kind = .rightParen → IsCallee callee e →
      Derives content 9 ts e → Derives content 8 (ts ++ [opening, closing]) (.call callee [])
  /-- A call with arguments and commas between them. -/
  | call {opening closing callee : Token} {ts first : List Token} {e value : Expr}
      {more : List Argument} : opening.kind = .leftParen → closing.kind = .rightParen →
      IsCallee callee e → Derives content 9 ts e → Derives content 1 first value →
      (∀ a ∈ more, a.separator.kind = .comma) → (∀ a ∈ more, Derives content 1 a.tokens a.value) →
      Derives content 8 (ts ++ opening :: (first ++ Argument.spelled more ++ [closing]))
        (.call callee (value :: more.map (·.value)))
  /-- A sign in front of an operand. -/
  | sign {op : Token} {ts : List Token} {e : Expr} : op.kind.isSignOperator = true →
      Derives content 7 ts e → Derives content 7 (op :: ts) (.unary op e)
  /-- A step in front of a variable. -/
  | stepBefore {op target : Token} {ts : List Token} : op.kind.isStepOperator = true →
      Derives content 9 ts (.ident target) → Derives content 7 (op :: ts) (.step op target false)
  /-- An operator between two operands groups to the left: its right side binds more tightly. -/
  | binary {op : Token} {n : Nat} {l r : List Token} {left right : Expr} :
      op.kind.stratum? = some n → Derives content n l left → Derives content (n + 1) r right →
      Derives content n (l ++ op :: r) (.binary op left right)
  /-- An assignment groups to the right. -/
  | assign {op target : Token} {l r : List Token} {value : Expr} : op.kind.isAssignment = true →
      Derives content 9 l (.ident target) → Derives content 1 r value →
      Derives content 1 (l ++ op :: r) (.assign op target value)
  /-- What binds tightly may stand where less is asked for. -/
  | lift {n : Nat} {ts : List Token} {e : Expr} : Derives content (n + 1) ts e →
      Derives content n ts e

namespace Derives

variable {content more : TokenKind → Prop} {m n : Nat} {ts : List Token} {e : Expr}

/-- What is derived at a stratum is derived at every looser one. -/
theorem lower (h : Derives content m ts e) (hle : n ≤ m) : Derives content n ts e := by
  induction hle with
  | refl => exact h
  | step _ ih => exact ih h.lift

/-- No expression is spelled by no tokens. -/
theorem ne_nil (h : Derives content n ts e) : ts ≠ [] := by
  induction h with
  | lift _ ih => exact ih
  | _ => simp

/-- A derivation starts with an operand. -/
theorem head (h : Derives content n ts e) :
    ∃ t rest, ts = t :: rest ∧ t.kind.startsOperand = true := by
  induction h with
  | number h => exact ⟨_, _, rfl, by simp [h, TokenKind.startsOperand]⟩
  | ident h _ => exact ⟨_, _, rfl, by simp [h, TokenKind.startsOperand]⟩
  | word h => exact ⟨_, _, rfl, by simp [h, TokenKind.startsOperand]⟩
  | emptyString h _ => exact ⟨_, _, rfl, by simp [h, TokenKind.startsOperand]⟩
  | string h _ _ => exact ⟨_, _, rfl, by simp [h, TokenKind.startsOperand]⟩
  | paren h _ _ _ => exact ⟨_, _, rfl, by simp [h, TokenKind.startsOperand]⟩
  | sign h _ _ => exact ⟨_, _, rfl, by simp [h, TokenKind.startsOperand]⟩
  | stepBefore h _ _ => exact ⟨_, _, rfl, by simp [h, TokenKind.startsOperand]⟩
  | stepAfter _ _ ih | callEmpty _ _ _ _ ih | call _ _ _ _ _ _ _ ih _ _ | index _ _ _ _ ih _
  | binary _ _ _ ih _ | assign _ _ _ ih _ =>
    obtain ⟨t, rest, rfl, hkind⟩ := ih
    exact ⟨t, _, rfl, hkind⟩
  | lift _ ih => exact ih

/-- A grammar that allows more between quotes derives more. -/
theorem mono (h : Derives content n ts e) (hmore : ∀ kind, content kind → more kind) :
    Derives more n ts e := by
  induction h with
  | number h => exact .number h
  | ident h hname => exact .ident h hname
  | word h => exact .word h
  | emptyString ho hc => exact .emptyString ho hc
  | string ho hb hc => exact .string ho (hmore _ hb) hc
  | paren ho hc _ ih => exact .paren ho hc ih
  | stepAfter hop _ ih => exact .stepAfter hop ih
  | index ho hc _ _ iht ihs => exact .index ho hc iht ihs
  | callEmpty ho hc hcallee _ ih => exact .callEmpty ho hc hcallee ih
  | call ho hc hcallee _ _ hseps _ ih ihfirst ihmore =>
    exact .call ho hc hcallee ih ihfirst hseps ihmore
  | sign hop _ ih => exact .sign hop ih
  | stepBefore hop _ ih => exact .stepBefore hop ih
  | binary hop _ _ ihl ihr => exact .binary hop ihl ihr
  | assign hop _ _ iht ihv => exact .assign hop iht ihv
  | lift _ ih => exact ih.lift

end Derives

/-! ## Writing trees -/

/-- How tightly the outermost operator of a tree binds. -/
def stratum : Expr → Nat
  | .unary _ _ => 7
  | .step _ _ after => if after then 8 else 7
  | .call _ _ => 8
  | .index _ _ => 8
  | .binary op _ _ => op.kind.stratum?.getD 9
  | .assign _ _ _ => 1
  | _ => 9

/-- The token of a sign that the tree does not hold. -/
def signToken (kind : TokenKind) : Token := ⟨kind, kind.name, 0, []⟩

/-- The tokens of a tree at a place that asks for a stratum: in parentheses only where the tree binds
more loosely than that. -/
def enclose (least : Nat) (e : Expr) (tokens : List Token) : List Token :=
  if e.stratum < least then signToken .leftParen :: (tokens ++ [signToken .rightParen]) else tokens

mutual

/-- The tokens of a tree, with as few parentheses as the grammar allows. -/
def spell : Expr → List Token
  | .ident token => [token]
  | .number token => [token]
  | .word token => [token]
  | .string opening value =>
    if value.isEmpty then [opening, signToken .quote]
    else [opening, ⟨.text, value, opening.line, opening.file⟩, signToken .quote]
  | .unary op operand => op :: enclose 7 operand (spell operand)
  | .step op target after => if after then [target, op] else [op, target]
  | .binary op left right =>
    let n := op.kind.stratum?.getD 9
    enclose n left (spell left) ++ op :: enclose (n + 1) right (spell right)
  | .assign op target value => target :: op :: spell value
  | .call callee [] => [callee, signToken .leftParen, signToken .rightParen]
  | .call callee (arg :: args) =>
    callee :: signToken .leftParen :: (spell arg ++ spellMore args ++ [signToken .rightParen])
  | .index target subscript =>
    enclose 8 target (spell target) ++ signToken .leftBracket :: (spell subscript ++ [signToken .rightBracket])

/-- The tokens of arguments behind the first one. -/
def spellMore : List Expr → List Token
  | [] => []
  | arg :: args => signToken .comma :: (spell arg ++ spellMore args)

end

theorem stratum_of_binary {op : Token} {n : Nat} (h : op.kind.stratum? = some n) :
    2 ≤ n ∧ n ≤ 6 := by
  revert h
  cases op.kind <;> simp [TokenKind.stratum?] <;> omega

theorem stratum_pos (e : Expr) : 1 ≤ e.stratum := by
  cases e with
  | step op target after => cases after <;> simp [stratum]
  | binary op left right =>
    simp only [stratum]
    cases h : op.kind.stratum? with
    | none => simp
    | some n =>
      have := stratum_of_binary h
      simp only [Option.getD_some]
      omega
  | _ => simp [stratum]

/-- A tree that derives at its own stratum derives at every place, in parentheses if need be. -/
theorem derives_enclose {content : TokenKind → Prop} {least : Nat} {e : Expr} {tokens : List Token}
    (h : Derives content e.stratum tokens e) (hleast : least ≤ 9) :
    Derives content least (enclose least e tokens) e := by
  unfold enclose
  split
  · exact (Derives.paren rfl rfl (h.lower (stratum_pos e))).lower hleast
  next hge => exact h.lower (by omega)

/-- What can be called is one token, of the highest stratum. -/
theorem IsCallee.spell_eq {callee : Token} {e : Expr} (h : IsCallee callee e) :
    e.spell = [callee] ∧ e.stratum = 9 := by
  cases e with
  | ident token => exact ⟨by rw [spell, show token = callee from h], rfl⟩
  | word token => exact ⟨by rw [spell, h.1], rfl⟩
  | _ => exact h.elim

/-- Arguments behind the first one as they are written. -/
def Argument.written (a : Argument) : Argument := ⟨signToken .comma, a.value.spell, a.value⟩

/-- Arguments are written with commas between them. -/
theorem Argument.spelled_written (more : List Argument) :
    Argument.spelled (more.map written) = spellMore (more.map (·.value)) := by
  induction more with
  | nil => rfl
  | cons a more ih =>
    simp only [List.map_cons, spellMore, ← ih]
    simp [spelled, written]

/-- Every tree of the grammar is derived from the tokens that it is written with. -/
theorem Derives.spell {content : TokenKind → Prop} (htext : content .text) {n : Nat}
    {ts : List Token} {e : Expr} (h : Derives content n ts e) :
    Derives content e.stratum e.spell e := by
  -- parentheses are dropped and put back where the stratum of an operand asks for them
  induction h with
  | number h => exact .number h
  | ident h hname => exact .ident h hname
  | word h => exact .word h
  | emptyString ho hc => exact .emptyString ho rfl
  | @string opening body closing ho hb hc =>
    simp only [Expr.spell, stratum]
    split
    next hempty =>
      rw [List.isEmpty_iff.1 hempty]
      exact .emptyString ho rfl
    next =>
      have hbody : content (Token.mk .text body.text opening.line opening.file).kind := htext
      exact .string ho hbody rfl
  | paren ho hc _ ih => exact ih
  | @stepAfter op target ts hop _ ih =>
    show Derives content 8 ([target] ++ [op]) (.step op target true)
    exact .stepAfter hop ih
  | index ho hc _ _ iht ihs =>
    exact .index rfl rfl (derives_enclose iht (by omega)) (ihs.lower (stratum_pos _))
  | @callEmpty opening closing callee ts e ho hc hcallee _ ih =>
    -- a callee is a name, and its spelling is that one token
    rw [hcallee.spell_eq.1, hcallee.spell_eq.2] at ih
    show Derives content 8 ([callee] ++ [signToken .leftParen, signToken .rightParen]) (.call callee [])
    exact .callEmpty rfl rfl hcallee ih
  | @call opening closing callee ts first e value more ho hc hcallee _ _ hseps _ ih ihfirst ihmore =>
    rw [hcallee.spell_eq.1, hcallee.spell_eq.2] at ih
    have hvalues : more.map (·.value) = (more.map Argument.written).map (·.value) := by
      simp [Argument.written, Function.comp_def]
    simp only [Expr.spell, stratum]
    rw [← Argument.spelled_written, hvalues]
    show Derives content 8 ([callee] ++ _) _
    refine .call rfl rfl hcallee ih (ihfirst.lower (stratum_pos _)) ?_ ?_
    · simp [Argument.written, signToken]
    · intro a ha
      obtain ⟨b, hb, rfl⟩ := List.mem_map.1 ha
      exact (ihmore b hb).lower (stratum_pos _)
  | sign hop _ ih => exact .sign hop (derives_enclose ih (by omega))
  | stepBefore hop _ ih => exact .stepBefore hop ih
  | @binary op n l r left right hop _ _ ihl ihr =>
    -- both operands are enclosed unless they bind at least as tightly as the operator
    have hn := stratum_of_binary hop
    simp only [Expr.spell, stratum, hop, Option.getD_some]
    exact .binary hop (derives_enclose ihl (by omega)) (derives_enclose ihr (by omega))
  | @assign op target l r value hop _ _ iht ihv =>
    show Derives content 1 ([target] ++ op :: value.spell) (.assign op target value)
    exact .assign hop iht (ihv.lower (stratum_pos _))
  | lift _ ih => exact ih

/-! ## What a tree keeps -/

mutual

/-- The tokens that a tree holds in the order of the source, each with the content of the string that
it opens. -/
def held : Expr → List (Token × Text)
  | .ident token => [(token, [])]
  | .number token => [(token, [])]
  | .word token => [(token, [])]
  | .string opening value => [(opening, value)]
  | .unary op operand => (op, []) :: held operand
  | .step op target after =>
    if after then [(target, []), (op, [])] else [(op, []), (target, [])]
  | .binary op left right => held left ++ (op, []) :: held right
  | .assign op target value => (target, []) :: (op, []) :: held value
  | .call callee args => (callee, []) :: heldAll args
  | .index target subscript => held target ++ held subscript

/-- The tokens that some trees hold. -/
def heldAll : List Expr → List (Token × Text)
  | [] => []
  | e :: rest => held e ++ heldAll rest

end

/-- The kinds that only group. -/
def grouping : List TokenKind := [.leftParen, .rightParen, .leftBracket, .rightBracket, .comma]

/-- What an opening quote opens, and what follows the closing one. -/
def quoted : List Token → Text × List Token
  | [] => ([], [])
  | body :: rest => if body.kind = .quote then ([], rest) else (body.text, rest.drop 1)

theorem length_quoted_le (tokens : List Token) : (quoted tokens).2.length ≤ tokens.length := by
  cases tokens with
  | nil => exact Nat.le_refl 0
  | cons body rest =>
    simp only [quoted]
    split
    · exact Nat.le_succ _
    · simp only [List.length_drop, List.length_cons]
      omega

/-- The tokens of a list without brackets, commas and closing quotes; an opening quote comes with
what it opens. -/
def keep (tokens : List Token) : List (Token × Text) :=
  match tokens with
  | [] => []
  | t :: rest =>
    if t.kind = .quote then (t, (quoted rest).1) :: keep (quoted rest).2
    else if t.kind ∈ grouping then keep rest
    else (t, []) :: keep rest
termination_by tokens.length
decreasing_by
  · exact Nat.lt_succ_of_le (length_quoted_le rest)
  all_goals exact Nat.lt_succ_self _

/-- Brackets are left out of what a rendering keeps. -/
theorem keep_group {t : Token} (h : t.kind ∈ grouping) (rest : List Token) :
    keep (t :: rest) = keep rest := by
  have hquote : t.kind ≠ .quote := by
    intro hq
    rw [hq] at h
    exact absurd h (by decide)
  rw [keep, if_neg hquote, if_pos h]

/-- Every other token is kept, with no content unless it is a quote. -/
theorem keep_other {t : Token} (hquote : t.kind ≠ .quote) (h : t.kind ∉ grouping)
    (rest : List Token) : keep (t :: rest) = (t, []) :: keep rest := by
  rw [keep, if_neg hquote, if_neg h]

/-- Operators are no brackets, so they are kept. -/
theorem keep_operator {op : Token}
    (h : (op.kind.stratum?.isSome || op.kind.isAssignment || op.kind.isSignOperator
      || op.kind.isStepOperator) = true) (rest : List Token) :
    keep (op :: rest) = (op, []) :: keep rest := by
  refine keep_other ?_ ?_ rest <;> revert h <;> cases op.kind <;> decide

theorem IsCallee.held_eq {callee : Token} {e : Expr} (h : IsCallee callee e) :
    e.held = [(callee, [])] := by
  cases e with
  | ident token => rw [held, show token = callee from h]
  | word token => rw [held, h.1]
  | _ => exact h.elim

/-- Arguments are kept one after the other. -/
theorem keep_spelled {more : List Argument} (hseps : ∀ a ∈ more, a.separator.kind = .comma)
    (h : ∀ a ∈ more, ∀ rest, keep (a.tokens ++ rest) = a.value.held ++ keep rest)
    (rest : List Token) :
    keep (Argument.spelled more ++ rest) = heldAll (more.map (·.value)) ++ keep rest := by
  induction more with
  | nil => rfl
  | cons a more ih =>
    have hcomma : a.separator.kind ∈ grouping := by
      rw [hseps a (by simp)]
      decide
    have hmore := ih (fun b hb => hseps b (by simp [hb])) (fun b hb => h b (by simp [hb]))
    simp only [Argument.spelled, List.flatMap_cons, List.cons_append, List.append_assoc,
      List.map_cons, heldAll]
    rw [keep_group hcomma, h a (by simp)]
    exact congrArg _ hmore

/-- The tree of a derivation holds every token but the grouping ones, in order. -/
theorem Derives.keep {content : TokenKind → Prop} (hcontent : ∀ kind, content kind → kind ≠ .quote)
    {n : Nat} {ts : List Token} {e : Expr} (h : Derives content n ts e) (rest : List Token) :
    Expr.keep (ts ++ rest) = e.held ++ Expr.keep rest := by
  -- the tokens behind the expression are carried along, for the parts are followed by tokens too
  induction h generalizing rest with
  | number h => exact keep_other (by simp [h]) (by simp [h, grouping]) rest
  | ident h _ => exact keep_other (by simp [h]) (by simp [h, grouping]) rest
  | @word t h =>
    refine keep_other ?_ ?_ rest <;> revert h <;>
      cases t.kind <;> simp [TokenKind.isOperandWord, grouping]
  | emptyString ho hc =>
    simp [Expr.keep, ho, quoted, hc, held]
  | string ho hb hc =>
    simp [Expr.keep, ho, quoted, hcontent _ hb, held]
  | @paren opening closing ts e ho hc _ ih =>
    rw [List.cons_append, List.append_assoc, keep_group (by simp [ho, grouping]), ih,
      List.singleton_append, keep_group (by simp [hc, grouping])]
  | @stepAfter op target ts hop _ ih =>
    rw [List.append_assoc, ih, List.singleton_append, keep_operator (by simp [hop])]
    simp [held]
  | index ho hc _ _ iht ihs =>
    rw [List.append_assoc, iht, List.cons_append, keep_group (by simp [ho, grouping]),
      List.append_assoc, ihs, List.singleton_append, keep_group (by simp [hc, grouping])]
    simp [held]
  | callEmpty ho hc hcallee _ ih =>
    rw [List.append_assoc, ih, List.cons_append, keep_group (by simp [ho, grouping]),
      List.singleton_append, keep_group (by simp [hc, grouping]), hcallee.held_eq]
    rfl
  | call ho hc hcallee _ _ hseps _ ih ihfirst ihmore =>
    rw [List.append_assoc, ih, List.cons_append, keep_group (by simp [ho, grouping]),
      List.append_assoc, List.append_assoc, ihfirst, keep_spelled hseps ihmore,
      List.singleton_append, keep_group (by simp [hc, grouping]), hcallee.held_eq]
    simp [held, heldAll]
  | sign hop _ ih =>
    rw [List.cons_append, keep_operator (by simp [hop]), ih]
    rfl
  | stepBefore hop _ ih =>
    rw [List.cons_append, keep_operator (by simp [hop]), ih]
    rfl
  | binary hop _ _ ihl ihr =>
    rw [List.append_assoc, ihl, List.cons_append, keep_operator (by simp [hop]), ihr]
    simp [held]
  | assign hop _ _ iht ihv =>
    rw [List.append_assoc, iht, List.cons_append, keep_operator (by simp [hop]), ihv]
    simp [held]
  | lift _ ih => exact ih rest

end Expr

end TickScript
