import Mathlib.Logic.Function.Iterate
import TickScript.Expr.Parser

/-!
# Reading an expression comes to an end

The readers of an expression call each other, and no single one of them shows what decreases.
`Readers.next` is one level of this recursion with the calls below it left open, so a reader that is
started with some fuel is that many levels on top of a bottom. The step lemma says that levels which
agree on short inputs give levels which agree on longer ones; therefore, from twice the number of
tokens on, it does not matter what stands at the bottom: it is never asked.

That the inputs do get shorter is part of the same induction. Every reader that succeeds leaves a
part at the end of its input, and an expression takes at least one token.

The bound is twice the number of tokens because two readers look at the same token, one inside the
other: the reader of an expression and that of its operand, or the reader of operators and that of a
single operator. `Agree` says for each of the five readers how many levels an input of some length
needs of it, and these counts differ by one along every call that takes no token.
-/

namespace TickScript.Expr

/-- Two computations do the same, and what they answer is as a postcondition says. -/
structure Settled {α : Type} (x y : Except Diagnostic α) (Q : α → Prop) : Prop where
  same : x = y
  post : ∀ a, x = .ok a → Q a

section

variable {α β : Type} {x y : Except Diagnostic α} {Q : α → Prop}

theorem settled_ok {a : α} (h : Q a) : Settled (.ok a) (.ok a) Q :=
  ⟨rfl, fun _ hok => Except.ok.inj hok ▸ h⟩

/-- A failure is the same with any fuel. -/
theorem settled_failAt {t : Token} {cause : Cause} : Settled (failAt t cause) (failAt t cause) Q :=
  ⟨rfl, fun _ hok => nomatch hok⟩

/-- Readers that agree one after the other agree together; the second may use what the first one left.
-/
theorem Settled.bind (hx : Settled x y Q) {f g : α → Except Diagnostic β} {R : β → Prop}
    (hf : ∀ a, Q a → Settled (f a) (g a) R) : Settled (x >>= f) (y >>= g) R := by
  obtain ⟨rfl, hpost⟩ := hx
  cases x with
  | error d => exact ⟨rfl, fun _ hok => nomatch hok⟩
  | ok a => exact hf a (hpost a rfl)

theorem Settled.weaken (hx : Settled x y Q) {R : α → Prop} (h : ∀ a, Q a → R a) : Settled x y R :=
  ⟨hx.same, fun a hok => h a (hx.post a hok)⟩

end

/-! ## Readers that do not call others -/

/-- What is expected is taken from the front. -/
theorem settled_expect (final : Token) (kind : TokenKind) (tokens : List Token) :
    Settled (expect final kind tokens) (expect final kind tokens) (· <:+ tokens) := by
  unfold expect
  split
  · exact settled_failAt
  · next t rest =>
      split
      · exact settled_ok (List.suffix_cons t rest)
      · exact settled_failAt

theorem settled_callee (opening : Token) (e : Expr) :
    Settled (callee opening e) (callee opening e) fun _ => True :=
  ⟨rfl, fun _ _ => trivial⟩

/-- A string consumes its tokens without a call. -/
theorem settled_readString (opening : Token) (tokens : List Token) :
    Settled (readString opening tokens) (readString opening tokens) (·.2 <:+ tokens) := by
  unfold readString
  split
  · exact settled_failAt
  · next t rest =>
      split
      · exact settled_ok (List.suffix_cons t rest)
      · split
        · next closing rest =>
            split
            · exact settled_ok ((List.suffix_cons closing rest).trans (List.suffix_cons t _))
            · exact settled_failAt
        · exact settled_failAt

/-! ## One level of the recursion -/

/-- How the readers behave. -/
structure Readers where
  from_ : (least : Nat) → List Token → Reading
  operand : Token → List Token → Reading
  operators : (least : Nat) → Expr → List Token → Reading
  operator : Expr → Token → List Token → Reading
  arguments : Token → List Token → Except Diagnostic (List Expr × List Token)

namespace Readers

/-- The readers above others. -/
def next (final : Token) (below : Readers) : Readers where
  from_ least
    | [] => failAt final .unexpectedEnd
    | t :: rest => do
      let (left, rest) ← below.operand t rest
      below.operators least left rest
  operand t rest :=
    match t.kind with
    | .number => .ok (.number t, rest)
    | .text =>
      if isIdentifier t.text then .ok (.ident t, rest) else failAt t (.invalidIdentifier t.text)
    | .true | .false | .null | .attached | .instantiate | .delete | .attach | .detach =>
      .ok (.word t, rest)
    | .quote => readString t rest
    | .plus | .minus | .tilde | .bang => do
      let (operand, rest) ← below.from_ TokenKind.operandPower rest
      .ok (.unary t operand, rest)
    | .increment | .decrement => do
      let (operand, rest) ← below.from_ TokenKind.operandPower rest
      match variableToken? operand with
      | some target => .ok (.step t target false, rest)
      | none => failAt t (.operandNotVariable t.text)
    | .leftParen => do
      let (inner, rest) ← below.from_ 0 rest
      let rest ← expect final .rightParen rest
      .ok (inner, rest)
    | _ => failAt t (.invalidStart t)
  operators least left
    | [] => .ok (left, [])
    | t :: rest => do
      if t.kind.infixPower ≤ least then .ok (left, t :: rest)
      else
        let (left, rest) ← below.operator left t rest
        below.operators least left rest
  operator left t rest :=
    match t.kind with
    | .leftParen => do
      let callee ← callee t left
      match rest with
      | next :: rest' =>
        if next.kind = .rightParen then .ok (.call callee [], rest')
        else do
          let (args, rest) ← below.arguments t rest
          .ok (.call callee args, rest)
      | [] => do
        let (args, rest) ← below.arguments t rest
        .ok (.call callee args, rest)
    | .leftBracket => do
      let (subscript, rest) ← below.from_ 0 rest
      let rest ← expect final .rightBracket rest
      .ok (.index left subscript, rest)
    | .increment | .decrement =>
      match variableToken? left with
      | some target => .ok (.step t target true, rest)
      | none => failAt t (.operandNotVariable t.text)
    | kind =>
      if kind.infixPower == 1 then
        match variableToken? left with
        | some target => do
          let (value, rest) ← below.from_ 0 rest
          .ok (.assign t target value, rest)
        | none => failAt t (.targetNotVariable t.text)
      else do
        let (right, rest) ← below.from_ kind.infixPower rest
        .ok (.binary t left right, rest)
  arguments opening tokens := do
    let (arg, rest) ← below.from_ 0 tokens
    match rest with
    | [] => failAt opening .unclosedArguments
    | t :: rest =>
      if t.kind = .rightParen then .ok ([arg], rest)
      else if t.kind = .comma then do
        let (args, rest) ← below.arguments opening rest
        .ok (arg :: args, rest)
      else failAt t (.badArguments t)

/-- The readers with some fuel. -/
def fuelled (final : Token) (fuel : Nat) : Readers where
  from_ := readFrom final fuel
  operand := readOperand final fuel
  operators := readOperators final fuel
  operator := readOperator final fuel
  arguments := readArguments final fuel

/-- One more unit of fuel is one more level. -/
theorem fuelled_succ (final : Token) (fuel : Nat) :
    fuelled final (fuel + 1) = (fuelled final fuel).next final := by
  refine Readers.mk.injEq .. ▸ ⟨?_, ?_, ?_, ?_, ?_⟩
  · funext least tokens
    cases tokens <;> rfl
  · funext t rest
    rw [readOperand]
    rfl
  · funext least left tokens
    cases tokens <;> rfl
  · funext left t rest
    rw [readOperator]
    rfl
  · funext opening tokens
    rw [readArguments]
    rfl

/-- A reader with fuel is that many levels on top of the reader without. -/
theorem fuelled_eq_iterate (final : Token) (fuel : Nat) :
    fuelled final fuel = (next final)^[fuel] (fuelled final 0) := by
  induction fuel with
  | zero => rfl
  | succ fuel ih => rw [Function.iterate_succ_apply', ← ih, fuelled_succ]

end Readers

/-! ## Agreement -/

/-- Readers agree on inputs that `n` levels can read: each of them leaves a part at the end of its
input, and an expression takes a token. -/
structure Agree (n : Nat) (r r' : Readers) : Prop where
  from_ : ∀ least tokens, 2 * tokens.length + 1 ≤ n →
    Settled (r.from_ least tokens) (r'.from_ least tokens) (·.2 <:+ tokens.tail)
  operand : ∀ t rest, 2 * rest.length + 2 ≤ n →
    Settled (r.operand t rest) (r'.operand t rest) (·.2 <:+ rest)
  operators : ∀ least left rest, 2 * rest.length + 2 ≤ n →
    Settled (r.operators least left rest) (r'.operators least left rest) (·.2 <:+ rest)
  operator : ∀ left t rest, 2 * rest.length + 3 ≤ n →
    Settled (r.operator left t rest) (r'.operator left t rest) (·.2 <:+ rest)
  arguments : ∀ opening tokens, 2 * tokens.length + 2 ≤ n →
    Settled (r.arguments opening tokens) (r'.arguments opening tokens) (·.2 <:+ tokens)

section

variable {n : Nat} {r r' : Readers} (h : Agree n r r') (final : Token)

include h

/-- An expression inside another one, up to a closing token or the end of the outer one. -/
theorem Agree.inner (least : Nat) {rest : List Token} (hn : 2 * rest.length + 1 ≤ n) :
    Settled (r.from_ least rest) (r'.from_ least rest) (·.2 <:+ rest) :=
  (h.from_ least rest hn).weaken fun _ hsuffix => hsuffix.trans (List.tail_suffix rest)

/-- An expression between two brackets. -/
theorem Agree.enclosed (closing : TokenKind) {rest : List Token} (hn : 2 * rest.length + 1 ≤ n)
    (make : Expr → Expr) :
    Settled
      (r.from_ 0 rest >>= fun (inner, rest) => do
        let rest ← expect final closing rest
        .ok (make inner, rest))
      (r'.from_ 0 rest >>= fun (inner, rest) => do
        let rest ← expect final closing rest
        .ok (make inner, rest))
      (·.2 <:+ rest) := by
  refine (h.inner 0 hn).bind fun (inner, rest₁) hrest₁ => ?_
  refine (settled_expect final closing rest₁).bind fun rest₂ hrest₂ => ?_
  exact settled_ok (hrest₂.trans hrest₁)

theorem Agree.next_from (least : Nat) (tokens : List Token) (hn : 2 * tokens.length + 1 ≤ n + 1) :
    Settled ((r.next final).from_ least tokens) ((r'.next final).from_ least tokens)
      (·.2 <:+ tokens.tail) := by
  cases tokens with
  | nil => exact settled_failAt
  | cons t rest =>
      rw [List.length_cons] at hn
      refine (h.operand t rest (by omega)).bind fun (left, rest₁) hrest₁ => ?_
      have hlength : rest₁.length ≤ rest.length := hrest₁.length_le
      refine (h.operators least left rest₁ (by omega)).weaken fun _ hrest₂ => ?_
      exact hrest₂.trans hrest₁

theorem Agree.next_operand (t : Token) (rest : List Token) (hn : 2 * rest.length + 2 ≤ n + 1) :
    Settled ((r.next final).operand t rest) ((r'.next final).operand t rest) (·.2 <:+ rest) := by
  have hrest : 2 * rest.length + 1 ≤ n := by omega
  have hself : rest <:+ rest := List.suffix_refl rest
  dsimp only [Readers.next]
  split
  case h_1 => exact settled_ok hself
  case h_2 =>
    split
    · exact settled_ok hself
    · exact settled_failAt
  case h_11 => exact settled_readString t rest
  case h_12 | h_13 | h_14 | h_15 =>
    exact (h.inner _ hrest).bind fun _ hrest₁ => settled_ok hrest₁
  case h_16 | h_17 =>
    refine (h.inner _ hrest).bind fun (operand, rest₁) hrest₁ => ?_
    dsimp only
    split
    · exact settled_ok hrest₁
    · exact settled_failAt
  case h_18 => exact h.enclosed final .rightParen hrest id
  case h_19 => exact settled_failAt
  all_goals exact settled_ok hself

theorem Agree.next_operators (least : Nat) (left : Expr) (rest : List Token)
    (hn : 2 * rest.length + 2 ≤ n + 1) :
    Settled ((r.next final).operators least left rest) ((r'.next final).operators least left rest)
      (·.2 <:+ rest) := by
  cases rest with
  | nil => exact settled_ok (List.suffix_refl _)
  | cons t rest =>
      rw [List.length_cons] at hn
      dsimp only [Readers.next]
      split
      · exact settled_ok (List.suffix_refl _)
      · refine (h.operator left t rest (by omega)).bind fun (left, rest₁) hrest₁ => ?_
        have hlength : rest₁.length ≤ rest.length := hrest₁.length_le
        refine (h.operators least left rest₁ (by omega)).weaken fun _ hrest₂ => ?_
        exact (hrest₂.trans hrest₁).trans (List.suffix_cons t rest)

theorem Agree.next_operator (left : Expr) (t : Token) (rest : List Token)
    (hn : 2 * rest.length + 3 ≤ n + 1) :
    Settled ((r.next final).operator left t rest) ((r'.next final).operator left t rest)
      (·.2 <:+ rest) := by
  have hrest : 2 * rest.length + 1 ≤ n := by omega
  dsimp only [Readers.next]
  split
  case h_1 =>
    refine (settled_callee t left).bind fun callee _ => ?_
    split
    · next following rest =>
        split
        · exact settled_ok (List.suffix_cons following rest)
        · exact (h.arguments t _ (by omega)).bind fun _ hrest₁ => settled_ok hrest₁
    · exact (h.arguments t _ (by omega)).bind fun _ hrest₁ => settled_ok hrest₁
  case h_2 => exact h.enclosed final .rightBracket hrest (Expr.index left)
  case h_3 | h_4 =>
    split
    · exact settled_ok (List.suffix_refl rest)
    · exact settled_failAt
  case h_5 =>
    split
    · split
      · exact (h.inner _ hrest).bind fun _ hrest₁ => settled_ok hrest₁
      · exact settled_failAt
    · exact (h.inner _ hrest).bind fun _ hrest₁ => settled_ok hrest₁

theorem Agree.next_arguments (opening : Token) (tokens : List Token)
    (hn : 2 * tokens.length + 2 ≤ n + 1) :
    Settled ((r.next final).arguments opening tokens) ((r'.next final).arguments opening tokens)
      (·.2 <:+ tokens) := by
  refine (h.inner 0 (by omega)).bind ?_
  rintro ⟨arg, rest₁⟩ hrest₁
  dsimp only at hrest₁ ⊢
  split
  · exact settled_failAt
  · next t rest₂ =>
      have hrest₂ : rest₂ <:+ tokens := (List.suffix_cons t rest₂).trans hrest₁
      have hlength := hrest₁.length_le
      rw [List.length_cons] at hlength
      split
      · exact settled_ok hrest₂
      · split
        · refine (h.arguments opening rest₂ (by omega)).bind ?_
          rintro ⟨args, rest₃⟩ hrest₃
          exact settled_ok (hrest₃.trans hrest₂)
        · exact settled_failAt

/-- One more level reads one more token. -/
theorem Agree.next : Agree (n + 1) (r.next final) (r'.next final) where
  from_ := h.next_from final
  operand := h.next_operand final
  operators := h.next_operators final
  operator := h.next_operator final
  arguments := h.next_arguments final

end

/-- Enough levels answer alike whatever lies below them: the induction is on the number of levels. -/
theorem agree_iterate (final : Token) (n : Nat) (bottom other : Readers) :
    Agree n ((Readers.next final)^[n] bottom) ((Readers.next final)^[n] other) := by
  induction n with
  | zero => constructor <;> intros <;> omega
  | succ n ih =>
      rw [Function.iterate_succ_apply', Function.iterate_succ_apply']
      exact ih.next final

/-- Reading an expression ends before the bottom is reached, with whatever fuel from twice the number
of tokens on; and the expression takes at least one token. -/
theorem settled_readFrom (final : Token) (least : Nat) (tokens : List Token) {fuel levels : Nat}
    (hfuel : 2 * tokens.length + 1 ≤ fuel) (hlevels : 2 * tokens.length + 1 ≤ levels)
    (bottom : Readers) :
    Settled (readFrom final fuel least tokens)
      (((Readers.next final)^[levels] bottom).from_ least tokens) (·.2 <:+ tokens.tail) := by
  obtain ⟨more, rfl⟩ := Nat.exists_eq_add_of_le hfuel
  obtain ⟨deeper, rfl⟩ := Nat.exists_eq_add_of_le hlevels
  have hagree := agree_iterate final (2 * tokens.length + 1)
    ((Readers.next final)^[more] (Readers.fuelled final 0)) ((Readers.next final)^[deeper] bottom)
  rw [← Function.iterate_add_apply, ← Function.iterate_add_apply, ← Readers.fuelled_eq_iterate]
    at hagree
  exact hagree.from_ least tokens (Nat.le_refl _)

end TickScript.Expr
