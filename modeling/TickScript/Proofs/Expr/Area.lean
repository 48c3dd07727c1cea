import TickScript.Proofs.Area

/-!
# The places of expressions

A reader of expressions answers with a tree of the tokens that it was given, or fails at one of
them. The end of an expression is reported at its last token. So both the answer and the error lie
in any area that has all of the tokens.

The readers call each other with less fuel, so the induction is on the fuel and all of them are in
one structure (`KeepTo`), which one step lemma for each reader carries on.
-/

namespace TickScript

variable {α β : Type} {A : Area}

/-- What a reader leaves lies in an area when its answer or its error does. -/
instance locatedExcept {ε : Type} [Located ε] [Located α] : Located (Except ε α) where
  LiesIn A
    | .ok a => LiesIn A a
    | .error e => LiesIn A e

/-- Readers that keep to an area keep to it one behind the other. -/
theorem liesIn_bind {ε : Type} [Located ε] [Located α] [Located β] {x : Except ε α}
    {f : α → Except ε β} (hx : LiesIn A x) (hf : ∀ a, LiesIn A a → LiesIn A (f a)) :
    LiesIn A (x >>= f) := by
  cases x with
  | error e => exact hx
  | ok a => exact hf a hx

instance locatedExprError : Located ExprError where
  LiesIn A
    | .empty => True
    | .at_ d => LiesIn A d

namespace Expr

/-- A missing token is reported at the last one. -/
theorem liesIn_expect {final : Token} {tokens : List Token} (hfinal : LiesIn A final)
    (h : LiesIn A tokens) (kind : TokenKind) : LiesIn A (expect final kind tokens) := by
  cases tokens with
  | nil => exact hfinal
  | cons t rest =>
      obtain ⟨ht, hrest⟩ := liesIn_cons.1 h
      simp only [expect]
      split
      · exact hrest
      · exact ht

/-- A string is a tree of its opening quote. -/
theorem liesIn_readString {opening : Token} {tokens : List Token}
    (hopening : LiesIn A opening) (h : LiesIn A tokens) : LiesIn A (readString opening tokens) := by
  unfold readString
  split
  · exact hopening
  · next t rest =>
      obtain ⟨ht, hrest⟩ := liesIn_cons.1 h
      split
      · exact ⟨hopening, hrest⟩
      · split
        · next closing rest =>
            split
            · exact ⟨hopening, (liesIn_cons.1 hrest).2⟩
            · exact hopening
        · exact hopening

theorem liesIn_variableToken {e : Expr} (h : LiesIn A e) :
    LiesIn A (variableToken? e) := by
  unfold variableToken?
  split
  · exact liesIn_some.2 h
  · exact liesIn_none

/-- What cannot be called is reported at the parenthesis. -/
theorem liesIn_callee {opening : Token} {e : Expr} (hopening : LiesIn A opening)
    (h : LiesIn A e) : LiesIn A (callee opening e) := by
  unfold callee
  split
  · exact h
  · split
    · exact h
    · exact hopening
  · exact hopening

/-- The readers with some fuel keep to the area of the tokens that they are given. -/
structure KeepTo (A : Area) (final : Token) (fuel : Nat) : Prop where
  from_ : ∀ least tokens, LiesIn A tokens → LiesIn A (readFrom final fuel least tokens)
  operand : ∀ t rest, LiesIn A t → LiesIn A rest → LiesIn A (readOperand final fuel t rest)
  operators : ∀ least left rest, LiesIn A left → LiesIn A rest →
    LiesIn A (readOperators final fuel least left rest)
  operator : ∀ left t rest, LiesIn A left → LiesIn A t → LiesIn A rest →
    LiesIn A (readOperator final fuel left t rest)
  arguments : ∀ opening tokens, LiesIn A opening → LiesIn A tokens →
    LiesIn A (readArguments final fuel opening tokens)

section

variable {final t opening : Token} {fuel : Nat} {left : Expr} {rest tokens : List Token}
  (h : KeepTo A final fuel) (hfinal : LiesIn A final)

include h

/-- An expression inside another one, made into a part of it. -/
theorem KeepTo.inner (least : Nat) (hrest : LiesIn A rest) {make : Expr → Expr}
    (hmake : ∀ e, LiesIn A e → LiesIn A (make e)) :
    LiesIn A (readFrom final fuel least rest >>= fun (inner, rest) => .ok (make inner, rest)) := by
  refine liesIn_bind (h.from_ least rest hrest) ?_
  rintro ⟨inner, rest₁⟩ ⟨hinner, hrest₁⟩
  exact ⟨hmake inner hinner, hrest₁⟩

theorem KeepTo.next_operators (least : Nat) (hleft : LiesIn A left) (hrest : LiesIn A rest) :
    LiesIn A (readOperators final (fuel + 1) least left rest) := by
  cases rest with
  | nil => exact liesIn_pair.2 ⟨hleft, hrest⟩
  | cons t rest =>
      obtain ⟨ht, hrest⟩ := liesIn_cons.1 hrest
      unfold readOperators
      simp only
      split
      · exact liesIn_pair.2 ⟨hleft, liesIn_cons.2 ⟨ht, hrest⟩⟩
      · refine liesIn_bind (h.operator left t rest hleft ht hrest) ?_
        rintro ⟨left₁, rest₁⟩ ⟨hleft₁, hrest₁⟩
        exact h.operators least left₁ rest₁ hleft₁ hrest₁

theorem KeepTo.next_arguments (hopening : LiesIn A opening) (htokens : LiesIn A tokens) :
    LiesIn A (readArguments final (fuel + 1) opening tokens) := by
  unfold readArguments
  refine liesIn_bind (h.from_ 0 tokens htokens) ?_
  rintro ⟨arg, rest₁⟩ ⟨harg, hrest₁⟩
  dsimp only at harg hrest₁ ⊢
  split
  · exact hopening
  · next t rest₂ =>
      obtain ⟨ht, hrest₂⟩ := liesIn_cons.1 hrest₁
      split
      · exact ⟨liesIn_cons.2 ⟨harg, liesIn_nil⟩, hrest₂⟩
      · split
        · refine liesIn_bind (h.arguments opening rest₂ hopening hrest₂) ?_
          rintro ⟨args, rest₃⟩ ⟨hargs, hrest₃⟩
          exact ⟨liesIn_cons.2 ⟨harg, hargs⟩, hrest₃⟩
        · exact ht

/-- The arguments of a call behind their opening parenthesis. -/
theorem KeepTo.next_call {callee : Token} (hcallee : LiesIn A callee) (ht : LiesIn A t)
    (hrest : LiesIn A rest) : LiesIn A
      (readArguments final fuel t rest >>= fun (args, rest) => .ok (call callee args, rest)) := by
  refine liesIn_bind (h.arguments t rest ht hrest) ?_
  rintro ⟨args, rest₁⟩ ⟨hargs, hrest₁⟩
  exact ⟨liesIn_call.2 ⟨hcallee, hargs⟩, hrest₁⟩

include hfinal

/-- An expression between brackets, made into a part of the one around it. -/
theorem KeepTo.enclosed (closing : TokenKind) (hrest : LiesIn A rest) {make : Expr → Expr}
    (hmake : ∀ e, LiesIn A e → LiesIn A (make e)) :
    LiesIn A (readFrom final fuel 0 rest >>= fun (inner, rest) => do
      let rest ← expect final closing rest
      .ok (make inner, rest)) := by
  refine liesIn_bind (h.from_ 0 rest hrest) ?_
  rintro ⟨inner, rest₁⟩ ⟨hinner, hrest₁⟩
  refine liesIn_bind (liesIn_expect hfinal hrest₁ closing) ?_
  intro rest₂ hrest₂
  exact ⟨hmake inner hinner, hrest₂⟩

theorem KeepTo.next_from (least : Nat) (htokens : LiesIn A tokens) :
    LiesIn A (readFrom final (fuel + 1) least tokens) := by
  cases tokens with
  | nil => exact hfinal
  | cons t rest =>
      obtain ⟨ht, hrest⟩ := liesIn_cons.1 htokens
      refine liesIn_bind (h.operand t rest ht hrest) ?_
      rintro ⟨left, rest₁⟩ ⟨hleft, hrest₁⟩
      exact h.operators least left rest₁ hleft hrest₁

theorem KeepTo.next_operand (ht : LiesIn A t) (hrest : LiesIn A rest) :
    LiesIn A (readOperand final (fuel + 1) t rest) := by
  unfold readOperand
  split
  case h_1 => exact ⟨ht, hrest⟩
  case h_2 =>
    split
    · exact ⟨ht, hrest⟩
    · exact ht
  case h_11 => exact liesIn_readString ht hrest
  case h_12 | h_13 | h_14 | h_15 => exact h.inner _ hrest fun e he => ⟨ht, he⟩
  case h_16 | h_17 =>
    refine liesIn_bind (h.from_ _ rest hrest) ?_
    rintro ⟨operand, rest₁⟩ ⟨hoperand, hrest₁⟩
    have htarget := liesIn_variableToken hoperand
    dsimp only at htarget ⊢
    split
    · next target hfound => exact ⟨⟨ht, htarget target hfound⟩, hrest₁⟩
    · exact ht
  case h_18 => exact h.enclosed hfinal .rightParen hrest fun e he => he
  case h_19 => exact ht
  all_goals exact ⟨ht, hrest⟩

theorem KeepTo.next_operator (hleft : LiesIn A left) (ht : LiesIn A t) (hrest : LiesIn A rest) :
    LiesIn A (readOperator final (fuel + 1) left t rest) := by
  unfold readOperator
  split
  case h_1 =>
    refine liesIn_bind (liesIn_callee ht hleft) ?_
    intro callee hcallee
    split
    · next following rest =>
        split
        · exact ⟨⟨hcallee, trivial⟩, (liesIn_cons.1 hrest).2⟩
        · exact h.next_call hcallee ht hrest
    · exact h.next_call hcallee ht hrest
  case h_2 => exact h.enclosed hfinal .rightBracket hrest fun e he => ⟨hleft, he⟩
  case h_3 | h_4 =>
    have htarget := liesIn_variableToken hleft
    split
    · next target hfound => exact ⟨⟨ht, htarget target hfound⟩, hrest⟩
    · exact ht
  case h_5 =>
    have htarget := liesIn_variableToken hleft
    split
    · split
      · next target hfound =>
          exact h.inner 0 hrest fun e he => ⟨ht, htarget target hfound, he⟩
      · exact ht
    · exact h.inner _ hrest fun e he => ⟨ht, hleft, he⟩

end

/-- With any amount of fuel: the step lemmas above, one for each reader. -/
theorem keepTo {final : Token} (hfinal : LiesIn A final) (fuel : Nat) : KeepTo A final fuel := by
  induction fuel with
  | zero =>
      exact {
        from_ := fun _ _ _ => by
          unfold readFrom
          exact hfinal
        operand := fun _ _ ht _ => ht
        operators := fun _ _ _ hleft hrest => by
          unfold readOperators
          exact liesIn_pair.2 ⟨hleft, hrest⟩
        operator := fun _ _ _ hleft _ hrest => ⟨hleft, hrest⟩
        arguments := fun _ _ hopening _ => hopening }
  | succ fuel ih =>
      exact {
        from_ := fun least _ htokens => ih.next_from hfinal least htokens
        operand := fun _ _ ht hrest => ih.next_operand hfinal ht hrest
        operators := fun least _ _ hleft hrest => ih.next_operators least hleft hrest
        operator := fun _ _ _ hleft ht hrest => ih.next_operator hfinal hleft ht hrest
        arguments := fun _ _ hopening htokens => ih.next_arguments hopening htokens }

/-- Both the tree and the error of a whole expression lie where its tokens do. -/
theorem liesIn_parse {tokens : List Token} (h : LiesIn A tokens) : LiesIn A (parse tokens) := by
  unfold parse
  split
  · exact trivial
  · next final hfinal =>
      have hlast : LiesIn A final := h final (List.mem_of_getLast? hfinal)
      have hread := (keepTo hlast (4 * tokens.length + 4)).from_ 0 tokens h
      split
      · next d hrun =>
          rw [hrun] at hread
          exact hread
      · next e hrun =>
          rw [hrun] at hread
          exact hread.1
      · next e t rest hrun =>
          rw [hrun] at hread
          exact (liesIn_cons.1 hread.2).1

end Expr
end TickScript
