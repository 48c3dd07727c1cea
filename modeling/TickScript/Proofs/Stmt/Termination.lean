import Mathlib.Logic.Function.Iterate
import TickScript.Proofs.Reporting
import TickScript.Proofs.Syntax

/-!
# Reading statements and declarations comes to an end

After a mistake the readers skip to a semicolon or over a block, leave from the middle of a statement
and go on wherever they stand, so what decreases is not to be seen in any one of them. As for
expressions, `Readers.next` is one level of the recursion with the calls below it left open, and
levels that agree on short inputs give levels that agree on longer ones. Here the postconditions hold
of every run, also of those that report: whatever happens, a statement takes its first token, and
what it leaves is a part at the end of its input.

The readers of statements cut their input and hand parts of it on, so the inputs get shorter from
one reader to the next, but not at every call: a reader of statements hands the whole of its input
to that of a single one. Three levels for each token cover that, with a few more for the reader at
hand; the bounds in `Agree` differ by one along every call that takes no token.
-/

namespace TickScript

/-! ## Stages that do the same -/

namespace Stage

variable {σ α β : Type}

/-- Two stages do the same, and whenever they come to their end, with reports or without, the answer
is as a postcondition says. -/
structure Settled (x y : Stage σ α) (Q : α → Prop) : Prop where
  same : x = y
  post : ∀ s log a s' log', x s log = .ok (a, s') log' → Q a

variable {x y : Stage σ α} {Q : α → Prop}

theorem settled_self (x : Stage σ α) : Settled x x fun _ => True :=
  ⟨rfl, fun _ _ _ _ _ _ => trivial⟩

theorem settled_pure {a : α} (h : Q a) : Settled (pure a : Stage σ α) (pure a) Q := by
  refine ⟨rfl, fun s log a' s' log' hrun => ?_⟩
  cases hrun
  exact h

theorem Settled.bind (hx : Settled x y Q) {f g : α → Stage σ β} {R : β → Prop}
    (hf : ∀ a, Q a → Settled (f a) (g a) R) : Settled (x >>= f) (y >>= g) R := by
  obtain ⟨rfl, hpost⟩ := hx
  constructor
  · funext s log
    rw [run_bind, run_bind]
    cases hrun : x s log with
    | error e log' => rfl
    | ok r log' => exact congrFun (congrFun (hf r.1 (hpost s log r.1 r.2 log' hrun)).same r.2) log'
  · intro s log b s' log' hrun
    rw [run_bind] at hrun
    cases hfirst : x s log with
    | error e log₁ => simp [hfirst] at hrun
    | ok r log₁ =>
        rw [hfirst] at hrun
        exact (hf r.1 (hpost s log r.1 r.2 log₁ hfirst)).post r.2 log₁ b s' log' hrun

/-- A stage whose answer does not matter. -/
theorem settled_bind_any (x : Stage σ α) {f g : α → Stage σ β} {R : β → Prop}
    (hf : ∀ a, Settled (f a) (g a) R) : Settled (x >>= f) (x >>= g) R :=
  (settled_self x).bind fun a _ => hf a

theorem Settled.weaken (hx : Settled x y Q) {R : α → Prop} (h : ∀ a, Q a → R a) : Settled x y R :=
  ⟨hx.same, fun s log a s' log' hrun => h a (hx.post s log a s' log' hrun)⟩

end Stage

open Stage

namespace Parsing

/-! ## Cutting -/

/-- What is behind a segment lies behind the first token, and the segment itself is not longer than
the input. -/
theorem segment_suffix (opening? : Option TokenKind) (closing : TokenKind) (depth : Nat)
    (tokens : List Token) : (segment opening? closing depth tokens).2.1 <:+ tokens.tail
      ∧ (segment opening? closing depth tokens).1.length ≤ tokens.length := by
  induction tokens generalizing depth with
  | nil => exact ⟨List.suffix_refl _, Nat.le_refl _⟩
  | cons t rest ih =>
      rw [segment]
      split
      · exact ⟨List.suffix_refl rest, Nat.zero_le _⟩
      · obtain ⟨hbehind, hinner⟩ := ih (if opening? = some t.kind then depth + 1
          else if t.kind = closing then depth - 1 else depth)
        exact ⟨hbehind.trans (List.tail_suffix rest), Nat.succ_le_succ hinner⟩

/-- A block leaves what lies behind it, and has fewer tokens than there are from its brace on. -/
theorem braced_suffix (tokens : List Token) :
    (braced tokens).2.1 <:+ tokens ∧ (braced tokens).1.length ≤ tokens.length := by
  obtain ⟨hbehind, hinner⟩ := segment_suffix (some .leftBrace) .rightBrace 0 tokens
  exact ⟨hbehind.trans (List.tail_suffix tokens), hinner⟩

theorem parenthesised_suffix (tokens : List Token) : (parenthesised tokens).2.1 <:+ tokens :=
  (segment_suffix (some .leftParen) .rightParen 0 tokens).1.trans (List.tail_suffix tokens)

/-- Going on behind a mistake takes a token if there is one. -/
theorem recover_suffix (tokens : List Token) : recover tokens <:+ tokens.tail := by
  induction tokens with
  | nil => exact List.suffix_refl _
  | cons t rest ih =>
      rw [recover]
      split
      · exact List.suffix_refl rest
      · split
        · exact (braced_suffix rest).1
        · exact ih.trans (List.tail_suffix rest)

theorem recover_suffix_of {tokens rest : List Token} (h : rest <:+ tokens) :
    recover rest <:+ tokens :=
  ((recover_suffix rest).trans (List.tail_suffix rest)).trans h

/-! ## Readers that do not call others -/

theorem settled_expect (ctx : ParseContext) (kind : TokenKind) (tokens : List Token) :
    Settled (expect ctx kind tokens) (expect ctx kind tokens)
      fun found? => ∀ t rest, found? = some (t, rest) → tokens = t :: rest := by
  unfold expect
  split
  · next found haccept =>
      refine settled_pure fun t rest hfound => ?_
      rw [hfound] at haccept
      exact (accept_eq_some haccept).2
  · exact settled_bind_any _ fun _ => settled_pure fun t rest hnone => nomatch hnone

theorem settled_statementTokens (start : Token) (tokens : List Token) :
    Settled (statementTokens start tokens) (statementTokens start tokens)
      (·.2 <:+ tokens.tail) := by
  have hbehind := (segment_suffix none .semicolon 0 tokens).1
  unfold statementTokens
  rcases hcut : segment none .semicolon 0 tokens with ⟨content, rest, closed⟩
  rw [hcut] at hbehind
  dsimp only
  split
  · exact settled_pure hbehind
  · exact settled_bind_any _ fun _ => settled_pure hbehind

theorem settled_declTail (ctx : ParseContext) (type : Token) (tokens : List Token) :
    Settled (declTail ctx type tokens) (declTail ctx type tokens) (·.2 <:+ tokens.tail) := by
  unfold declTail
  refine (settled_statementTokens type tokens).bind fun (content?, rest) hrest => ?_
  dsimp only
  split
  · exact settled_pure hrest
  · exact settled_bind_any _ fun _ => settled_pure hrest

theorem settled_variable (ctx : ParseContext) (type : Token) (tokens : List Token) :
    Settled (variable_ ctx type tokens) (variable_ ctx type tokens) (·.2 <:+ tokens.tail) :=
  (settled_declTail ctx type tokens).bind fun _ hrest => settled_pure hrest

theorem settled_return (ctx : ParseContext) (word : Token) (tokens : List Token) :
    Settled (return_ ctx word tokens) (return_ ctx word tokens) (·.2 <:+ tokens.tail) := by
  unfold return_
  refine (settled_statementTokens word tokens).bind fun (content?, rest) hrest => ?_
  dsimp only
  split
  · exact settled_pure hrest
  · refine settled_bind_any _ fun name => ?_
    split
    · exact settled_pure hrest
    · refine settled_bind_any _ fun e? => ?_
      split <;> exact settled_pure hrest

theorem settled_exprStatement (ctx : ParseContext) (start : Token) (tokens : List Token) :
    Settled (exprStatement ctx start tokens) (exprStatement ctx start tokens)
      (·.2 <:+ tokens.tail) := by
  unfold exprStatement
  refine (settled_statementTokens start tokens).bind fun (content?, rest) hrest => ?_
  dsimp only
  split
  · exact settled_pure hrest
  · split
    · exact settled_pure hrest
    · refine settled_bind_any _ fun e? => ?_
      split
      · exact settled_bind_any _ fun _ => settled_pure hrest
      · exact settled_pure hrest

theorem settled_condition (ctx : ParseContext) (word : Token) (tokens : List Token) :
    Settled (condition ctx word tokens) (condition ctx word tokens) (·.2 <:+ tokens) := by
  unfold condition
  refine (settled_expect ctx .leftParen tokens).bind fun found? hfound => ?_
  split
  · exact settled_pure (List.suffix_refl tokens)
  · next opening inside =>
      obtain rfl := hfound opening inside rfl
      have hbehind : (parenthesised inside).2.1 <:+ opening :: inside :=
        (parenthesised_suffix inside).trans (List.suffix_cons opening inside)
      rcases hcut : parenthesised inside with ⟨content, rest, closed⟩
      rw [hcut] at hbehind
      dsimp only
      split
      · exact settled_bind_any _ fun _ => settled_pure hbehind
      · split
        · exact settled_bind_any _ fun _ => settled_pure hbehind
        · exact settled_bind_any _ fun _ => settled_pure hbehind

/-! ## One level of the recursion -/

/-- How the readers behave. -/
structure Readers where
  statements : ParseContext → List Token → Parsing (List Stmt)
  statement : ParseContext → List Token → Parsing (List Stmt × List Token)
  branchBody : ParseContext → (word : Token) → List Token → Parsing (List Stmt × List Token)
  branch : ParseContext → (word : Token) → List Token →
    Parsing (Option (Expr × List Stmt × Alternatives) × List Token)
  doLoop : ParseContext → (word : Token) → List Token → Parsing (Option Stmt × List Token)
  whileLoop : ParseContext → (word : Token) → List Token → Parsing (Option Stmt × List Token)
  forLoop : ParseContext → (word : Token) → List Token → Parsing (Option Stmt × List Token)

namespace Readers

/-- The readers above others. -/
def next (below : Readers) : Readers where
  statements ctx
    | [] => return []
    | t :: rest => do
      let (first, rest) ← below.statement ctx (t :: rest)
      return first ++ (← below.statements ctx rest)
  statement ctx
    | [] => return ([], [])
    | t :: rest => do
      match t.kind with
      | .typeName =>
        let (decl?, rest) ← variable_ ctx t rest
        return (decl?.toList.map Stmt.declare, rest)
      | .ifWord =>
        let name ← freshName ctx "if"
        let (branch?, rest) ← below.branch ctx t rest
        return ((branch?.map fun (cond, body, alternatives) =>
          Stmt.ifElse name t cond body alternatives).toList, rest)
      | .doWord =>
        let (loop?, rest) ← below.doLoop ctx t rest
        return (loop?.toList, rest)
      | .whileWord =>
        let (loop?, rest) ← below.whileLoop ctx t rest
        return (loop?.toList, rest)
      | .forWord =>
        let (loop?, rest) ← below.forLoop ctx t rest
        return (loop?.toList, rest)
      | .returnWord =>
        let (stmt?, rest) ← return_ ctx t rest
        return (stmt?.toList, rest)
      | .leftBrace =>
        let (body, rest, closed) := braced rest
        if !closed then unterminated body t .unclosedBlock
        return (← below.statements (.ofTokens ctx.function body) body, rest)
      | .semicolon => return ([], rest)
      | .define | .field =>
        report t (.notInsideFunction t.text)
        return ([], recover (t :: rest))
      | .elseWord =>
        report t .elseWithoutIf
        return ([], recover rest)
      | _ =>
        let (stmt?, rest) ← exprStatement ctx t (t :: rest)
        return (stmt?.toList, rest)
  branchBody ctx word tokens := do
    match tokens with
    | [] =>
      report word (.missingBody word.text)
      return ([], [])
    | t :: rest =>
      if t.kind = .leftBrace then
        let (body, rest, closed) := braced rest
        if !closed then unterminated body t (.unclosedBody word.text)
        return (← below.statements (.ofTokens ctx.function body) body, rest)
      else below.statement ctx tokens
  branch ctx word tokens := do
    match ← condition ctx word tokens with
    | (none, rest) => return (none, recover rest)
    | (some cond, rest) =>
      let (body, rest) ← below.branchBody ctx word rest
      match accept .elseWord rest with
      | none => return (some (cond, body, .none), rest)
      | some (elseToken, rest) =>
        let name ← freshName ctx "else"
        match accept .ifWord rest with
        | some (ifToken, rest) =>
          let (next?, rest) ← below.branch ctx ifToken rest
          return (next?.map fun (cond', body', more) =>
            (cond, body, .elseIf name ifToken cond' body' more), rest)
        | none =>
          let (elseBody, rest) ← below.branchBody ctx elseToken rest
          return (some (cond, body, .otherwise name elseToken elseBody), rest)
  doLoop ctx word tokens := do
    let name ← freshName ctx "do"
    let (body, rest) ← below.branchBody ctx word tokens
    match ← expect ctx .whileWord rest with
    | none => return (none, recover rest)
    | some (whileToken, rest) =>
      match ← condition ctx whileToken rest with
      | (none, rest) => return (none, recover rest)
      | (some cond, rest) =>
        match ← expect ctx .semicolon rest with
        | none => return (none, rest)
        | some (_, rest) =>
          return (some (.loop name word .doWhile (some cond) none .nothing body), rest)
  whileLoop ctx word tokens := do
    let name ← freshName ctx "while"
    match ← condition ctx word tokens with
    | (none, rest) => return (none, recover rest)
    | (some cond, rest) =>
      let (body, rest) ← below.branchBody ctx word rest
      return (some (.loop name word .while_ (some cond) none .nothing body), rest)
  forLoop ctx word tokens := do
    let name ← freshName ctx "for"
    match ← expect ctx .leftParen tokens with
    | none => return (none, recover tokens)
    | some (_, tokens) =>
      let (header, rest, closed) := parenthesised tokens
      if !closed then
        unterminated header word .unclosedHeader
        return (none, rest)
      else match splitTop .semicolon 0 header with
        | [init, cond, step] =>
          match ← forHeader ctx init cond step with
          | none => return (none, rest)
          | some (start, cond?, step?) =>
            let (body, rest) ← below.branchBody ctx word rest
            return (some (.loop name word .for_ cond? step? start body), rest)
        | parts =>
          report word (.badHeader (parts.length - 1))
          let (_, rest) ← below.branchBody ctx word rest
          return (none, rest)

/-- The readers with some fuel. -/
def fuelled (fuel : Nat) : Readers where
  statements ctx := Parsing.statements ctx fuel
  statement ctx := Parsing.statement ctx fuel
  branchBody ctx := Parsing.branchBody ctx fuel
  branch ctx := Parsing.branch ctx fuel
  doLoop ctx := Parsing.doLoop ctx fuel
  whileLoop ctx := Parsing.whileLoop ctx fuel
  forLoop ctx := Parsing.forLoop ctx fuel

/-- One more unit of fuel is one more level. -/
theorem fuelled_succ (fuel : Nat) : fuelled (fuel + 1) = (fuelled fuel).next := by
  refine Readers.mk.injEq .. ▸ ⟨?_, ?_, ?_, ?_, ?_, ?_, ?_⟩
  · funext ctx tokens
    cases tokens <;> rfl
  · funext ctx tokens
    cases tokens with
    | nil => rfl
    | cons t rest =>
        rw [Parsing.statement]
        rfl
  · funext ctx word tokens
    cases tokens <;> rfl
  · funext ctx word tokens
    rw [Parsing.branch]
    rfl
  · funext ctx word tokens
    rw [Parsing.doLoop]
    rfl
  · funext ctx word tokens
    rw [Parsing.whileLoop]
    rfl
  · funext ctx word tokens
    rw [Parsing.forLoop]
    rfl

theorem fuelled_eq_iterate (fuel : Nat) : fuelled fuel = next^[fuel] (fuelled 0) := by
  induction fuel with
  | zero => rfl
  | succ fuel ih => rw [Function.iterate_succ_apply', ← ih, fuelled_succ]

end Readers

/-! ## Agreement -/

/-- Readers agree on inputs that `n` levels can read. A statement, and with it the body of a branch or
loop, takes a token if there is one. -/
structure Agree (n : Nat) (r r' : Readers) : Prop where
  statements : ∀ ctx tokens, 3 * tokens.length + 2 ≤ n →
    Settled (r.statements ctx tokens) (r'.statements ctx tokens) fun _ => True
  statement : ∀ ctx tokens, 3 * tokens.length + 1 ≤ n →
    Settled (r.statement ctx tokens) (r'.statement ctx tokens) (·.2 <:+ tokens.tail)
  branchBody : ∀ ctx word tokens, 3 * tokens.length + 2 ≤ n →
    Settled (r.branchBody ctx word tokens) (r'.branchBody ctx word tokens) (·.2 <:+ tokens.tail)
  branch : ∀ ctx word tokens, 3 * tokens.length + 3 ≤ n →
    Settled (r.branch ctx word tokens) (r'.branch ctx word tokens) (·.2 <:+ tokens)
  doLoop : ∀ ctx word tokens, 3 * tokens.length + 3 ≤ n →
    Settled (r.doLoop ctx word tokens) (r'.doLoop ctx word tokens) (·.2 <:+ tokens)
  whileLoop : ∀ ctx word tokens, 3 * tokens.length + 3 ≤ n →
    Settled (r.whileLoop ctx word tokens) (r'.whileLoop ctx word tokens) (·.2 <:+ tokens)
  forLoop : ∀ ctx word tokens, 3 * tokens.length + 3 ≤ n →
    Settled (r.forLoop ctx word tokens) (r'.forLoop ctx word tokens) (·.2 <:+ tokens)

namespace Agree

variable {n : Nat} {r r' : Readers} (h : Agree n r r') (ctx : ParseContext) (word : Token)
  (tokens : List Token)

include h

theorem next_statements (hn : 3 * tokens.length + 2 ≤ n + 1) :
    Settled (r.next.statements ctx tokens) (r'.next.statements ctx tokens) fun _ => True := by
  cases tokens with
  | nil => exact settled_pure trivial
  | cons t rest =>
      rw [List.length_cons] at hn
      refine (h.statement ctx (t :: rest) (by rw [List.length_cons]; omega)).bind
        fun (first, rest₁) hrest₁ => ?_
      have hlength : rest₁.length ≤ rest.length := hrest₁.length_le
      exact (h.statements ctx rest₁ (by omega)).bind fun more _ => settled_pure trivial

/-- A block is read by itself and has fewer tokens than there are from its brace on. -/
theorem block (opening : Token) (cause : Cause) (hn : 3 * tokens.length + 2 ≤ n) :
    Settled
      (do
        if !(braced tokens).2.2 then unterminated (braced tokens).1 opening cause
        return (← r.statements (.ofTokens ctx.function (braced tokens).1) (braced tokens).1,
          (braced tokens).2.1))
      (do
        if !(braced tokens).2.2 then unterminated (braced tokens).1 opening cause
        return (← r'.statements (.ofTokens ctx.function (braced tokens).1) (braced tokens).1,
          (braced tokens).2.1))
      (·.2 <:+ tokens) := by
  obtain ⟨hbehind, hinner⟩ := braced_suffix tokens
  have hn' : 3 * (braced tokens).1.length + 2 ≤ n := by omega
  split
  · refine settled_bind_any _ fun _ => ?_
    exact (h.statements _ _ hn').bind fun _ _ => settled_pure hbehind
  · exact (h.statements _ _ hn').bind fun _ _ => settled_pure hbehind

theorem next_statement (hn : 3 * tokens.length + 1 ≤ n + 1) :
    Settled (r.next.statement ctx tokens) (r'.next.statement ctx tokens) (·.2 <:+ tokens.tail) := by
  cases tokens with
  | nil => exact settled_pure (List.suffix_refl _)
  | cons t rest =>
      rw [List.length_cons] at hn
      dsimp only [Readers.next, List.tail_cons]
      -- one case for each kind of first token; the recursive readers are asked about what is behind
      -- it
      split
      next =>
        refine (settled_variable ctx t rest).bind fun _ hrest => ?_
        exact settled_pure (hrest.trans (List.tail_suffix rest))
      next =>
        refine settled_bind_any _ fun name => ?_
        exact (h.branch ctx t rest (by omega)).bind fun _ hrest => settled_pure hrest
      next => exact (h.doLoop ctx t rest (by omega)).bind fun _ hrest => settled_pure hrest
      next => exact (h.whileLoop ctx t rest (by omega)).bind fun _ hrest => settled_pure hrest
      next => exact (h.forLoop ctx t rest (by omega)).bind fun _ hrest => settled_pure hrest
      next =>
        refine (settled_return ctx t rest).bind fun _ hrest => ?_
        exact settled_pure (hrest.trans (List.tail_suffix rest))
      next => exact h.block ctx rest t _ (by omega)
      next => exact settled_pure (List.suffix_refl rest)
      next => exact settled_bind_any _ fun _ => settled_pure (recover_suffix (t :: rest))
      next => exact settled_bind_any _ fun _ => settled_pure (recover_suffix (t :: rest))
      next =>
        exact settled_bind_any _ fun _ => settled_pure (recover_suffix_of (List.suffix_refl rest))
      next =>
        exact (settled_exprStatement ctx t (t :: rest)).bind fun _ hrest => settled_pure hrest

theorem next_branchBody (hn : 3 * tokens.length + 2 ≤ n + 1) :
    Settled (r.next.branchBody ctx word tokens) (r'.next.branchBody ctx word tokens)
      (·.2 <:+ tokens.tail) := by
  cases tokens with
  | nil => exact settled_bind_any _ fun _ => settled_pure (List.suffix_refl _)
  | cons t rest =>
      dsimp only [Readers.next]
      split
      · rw [List.length_cons] at hn
        exact h.block ctx rest t _ (by omega)
      · exact h.statement ctx (t :: rest) (by omega)

/-- The body behind some tokens. -/
theorem bodyBehind {rest : List Token} (hrest : rest <:+ tokens) (hn : 3 * tokens.length + 2 ≤ n) :
    Settled (r.branchBody ctx word rest) (r'.branchBody ctx word rest) (·.2 <:+ tokens) := by
  have hlength := hrest.length_le
  refine (h.branchBody ctx word rest (by omega)).weaken fun _ hbehind => ?_
  exact (hbehind.trans (List.tail_suffix rest)).trans hrest

theorem next_branch (hn : 3 * tokens.length + 3 ≤ n + 1) :
    Settled (r.next.branch ctx word tokens) (r'.next.branch ctx word tokens) (·.2 <:+ tokens) := by
  refine (settled_condition ctx word tokens).bind fun (cond?, rest) hrest => ?_
  cases cond? with
  | none => exact settled_pure (recover_suffix_of hrest)
  | some cond =>
      refine (h.bodyBehind ctx word tokens hrest (by omega)).bind fun (body, rest₁) hrest₁ => ?_
      dsimp only
      split
      next => exact settled_pure hrest₁
      next elseToken rest₂ haccept =>
        obtain ⟨-, rfl⟩ := accept_eq_some haccept
        have hrest₂ : rest₂ <:+ tokens := (List.suffix_cons elseToken rest₂).trans hrest₁
        have hlength := hrest₁.length_le
        rw [List.length_cons] at hlength
        refine settled_bind_any _ fun name => ?_
        split
        next ifToken rest₃ hif =>
          obtain ⟨-, rfl⟩ := accept_eq_some hif
          have hrest₃ : rest₃ <:+ tokens := (List.suffix_cons ifToken rest₃).trans hrest₂
          rw [List.length_cons] at hlength
          refine (h.branch ctx ifToken rest₃ (by omega)).bind fun (next?, rest₄) hrest₄ => ?_
          exact settled_pure (hrest₄.trans hrest₃)
        next =>
          refine (h.bodyBehind ctx elseToken tokens hrest₂ (by omega)).bind fun _ hrest₃ => ?_
          exact settled_pure hrest₃

theorem next_doLoop (hn : 3 * tokens.length + 3 ≤ n + 1) :
    Settled (r.next.doLoop ctx word tokens) (r'.next.doLoop ctx word tokens) (·.2 <:+ tokens) := by
  refine settled_bind_any _ fun name => ?_
  refine (h.bodyBehind ctx word tokens (List.suffix_refl tokens) (by omega)).bind
    fun (body, rest₁) hrest₁ => ?_
  refine (settled_expect ctx .whileWord rest₁).bind fun found? hfound => ?_
  dsimp only at hrest₁ ⊢
  split
  · exact settled_pure (recover_suffix_of hrest₁)
  · next whileToken rest₂ =>
      obtain rfl := hfound whileToken rest₂ rfl
      have hrest₂ : rest₂ <:+ tokens := (List.suffix_cons whileToken rest₂).trans hrest₁
      refine (settled_condition ctx whileToken rest₂).bind fun (cond?, rest₃) hbehind => ?_
      have hrest₃ : rest₃ <:+ tokens := List.IsSuffix.trans hbehind hrest₂
      cases cond? with
      | none => exact settled_pure (recover_suffix_of hrest₃)
      | some cond =>
          refine (settled_expect ctx .semicolon rest₃).bind fun found? hfound => ?_
          split
          · exact settled_pure hrest₃
          · next semicolon rest₄ =>
              obtain rfl := hfound semicolon rest₄ rfl
              exact settled_pure ((List.suffix_cons semicolon rest₄).trans hrest₃)

theorem next_whileLoop (hn : 3 * tokens.length + 3 ≤ n + 1) :
    Settled (r.next.whileLoop ctx word tokens) (r'.next.whileLoop ctx word tokens)
      (·.2 <:+ tokens) := by
  refine settled_bind_any _ fun name => ?_
  refine (settled_condition ctx word tokens).bind fun (cond?, rest) hrest => ?_
  cases cond? with
  | none => exact settled_pure (recover_suffix_of hrest)
  | some cond =>
      refine (h.bodyBehind ctx word tokens hrest (by omega)).bind fun _ hrest₁ => ?_
      exact settled_pure hrest₁

theorem next_forLoop (hn : 3 * tokens.length + 3 ≤ n + 1) :
    Settled (r.next.forLoop ctx word tokens) (r'.next.forLoop ctx word tokens) (·.2 <:+ tokens) := by
  refine settled_bind_any _ fun name => ?_
  refine (settled_expect ctx .leftParen tokens).bind fun found? hfound => ?_
  split
  · exact settled_pure (recover_suffix_of (List.suffix_refl tokens))
  · next opening inside =>
      have htokens := hfound opening inside rfl
      have hbehind : (parenthesised inside).2.1 <:+ tokens := by
        rw [htokens]
        exact (parenthesised_suffix inside).trans (List.suffix_cons opening inside)
      rcases hcut : parenthesised inside with ⟨header, rest, closed⟩
      rw [hcut] at hbehind
      dsimp only at hbehind ⊢
      split
      · exact settled_bind_any _ fun _ => settled_pure hbehind
      · split
        · refine settled_bind_any _ fun header? => ?_
          split
          · exact settled_pure hbehind
          · refine (h.bodyBehind ctx word tokens hbehind (by omega)).bind fun _ hrest₁ => ?_
            exact settled_pure hrest₁
        · refine settled_bind_any _ fun _ => ?_
          refine (h.bodyBehind ctx word tokens hbehind (by omega)).bind fun _ hrest₁ => ?_
          exact settled_pure hrest₁

/-- One more level. -/
theorem next : Agree (n + 1) r.next r'.next where
  statements := h.next_statements
  statement := h.next_statement
  branchBody := h.next_branchBody
  branch := h.next_branch
  doLoop := h.next_doLoop
  whileLoop := h.next_whileLoop
  forLoop := h.next_forLoop

end Agree

theorem agree_iterate (n : Nat) (bottom other : Readers) :
    Agree n (Readers.next^[n] bottom) (Readers.next^[n] other) := by
  induction n with
  | zero => constructor <;> intros <;> omega
  | succ n ih =>
      rw [Function.iterate_succ_apply', Function.iterate_succ_apply']
      exact ih.next

/-- Readers with enough fuel agree with as many levels on any bottom. -/
theorem agree_fuelled {n fuel levels : Nat} (hfuel : n ≤ fuel) (hlevels : n ≤ levels)
    (bottom : Readers) : Agree n (Readers.fuelled fuel) (Readers.next^[levels] bottom) := by
  obtain ⟨more, rfl⟩ := Nat.exists_eq_add_of_le hfuel
  obtain ⟨deeper, rfl⟩ := Nat.exists_eq_add_of_le hlevels
  have hagree := agree_iterate n (Readers.next^[more] (Readers.fuelled 0)) (Readers.next^[deeper] bottom)
  rwa [← Function.iterate_add_apply, ← Function.iterate_add_apply, ← Readers.fuelled_eq_iterate]
    at hagree

/-! ## Declarations -/

theorem settled_returnType (ctx : ParseContext) (tokens : List Token) :
    Settled (returnType ctx tokens) (returnType ctx tokens) (·.2 <:+ tokens) := by
  unfold returnType
  split
  · exact settled_pure (List.suffix_refl tokens)
  · next sign rest haccept =>
      obtain ⟨-, rfl⟩ := accept_eq_some haccept
      have hrest : rest <:+ sign :: rest := List.suffix_cons sign rest
      refine (settled_expect ctx .typeName rest).bind fun found? hfound => ?_
      split
      · next type behind =>
          obtain rfl := hfound type behind rfl
          exact settled_pure ((List.suffix_cons type behind).trans hrest)
      · exact settled_pure (recover_suffix_of hrest)

theorem settled_functionEnd (ctx : ParseContext) (announced : FuncDecl) (tokens : List Token) :
    Settled (functionEnd ctx announced tokens) (functionEnd ctx announced tokens)
      (·.2 <:+ tokens) := by
  unfold functionEnd
  split
  · next semicolon rest haccept =>
      obtain ⟨-, rfl⟩ := accept_eq_some haccept
      exact settled_pure (List.suffix_cons semicolon rest)
  · refine (settled_expect ctx .leftBrace tokens).bind fun found? hfound => ?_
    split
    · exact settled_pure (recover_suffix_of (List.suffix_refl tokens))
    · next opening inside =>
        obtain rfl := hfound opening inside rfl
        have hbehind : (braced inside).2.1 <:+ opening :: inside :=
          (braced_suffix inside).1.trans (List.suffix_cons opening inside)
        rcases hcut : braced inside with ⟨inner, rest, closed⟩
        rw [hcut] at hbehind
        dsimp only at hbehind ⊢
        split
        · refine settled_bind_any _ fun _ => ?_
          exact settled_bind_any _ fun _ => settled_pure hbehind
        · exact settled_bind_any _ fun _ => settled_pure hbehind

theorem settled_functionTail (ctx : ParseContext) (word name : Token) (params : List Param)
    (tokens : List Token) :
    Settled (functionTail ctx word name params tokens) (functionTail ctx word name params tokens)
      (·.2 <:+ tokens) := by
  unfold functionTail
  refine (settled_returnType ctx tokens).bind fun (type?, rest) hrest => ?_
  dsimp only at hrest ⊢
  split
  · exact settled_pure hrest
  · exact (settled_functionEnd ctx _ rest).weaken fun _ hbehind => hbehind.trans hrest

theorem settled_function (ctx : ParseContext) (word : Token) (tokens : List Token) :
    Settled (function ctx word tokens) (function ctx word tokens) (·.2 <:+ tokens) := by
  unfold function
  split
  · exact settled_bind_any _ fun _ => settled_pure (recover_suffix_of (List.suffix_refl tokens))
  · next name rest haccept =>
      have hrest : rest <:+ tokens := by
        rw [(accept_eq_some haccept).2]
        exact List.suffix_cons name rest
      split
      · exact settled_bind_any _ fun _ => settled_pure (recover_suffix_of hrest)
      · refine (settled_expect ctx .leftParen rest).bind fun found? hfound => ?_
        split
        · exact settled_pure (recover_suffix_of hrest)
        · next opening inside =>
            have hbehind : (parenthesised inside).2.1 <:+ tokens := by
              have hinside : inside <:+ rest := by
                rw [hfound opening inside rfl]
                exact List.suffix_cons opening inside
              exact ((parenthesised_suffix inside).trans hinside).trans hrest
            rcases hcut : parenthesised inside with ⟨inner, behind, closed⟩
            rw [hcut] at hbehind
            dsimp only at hbehind ⊢
            split
            · exact settled_bind_any _ fun _ => settled_pure hbehind
            · have htail (params : List Param) :
                  Settled (functionTail ctx word name params behind)
                    (functionTail ctx word name params behind) (·.2 <:+ tokens) :=
                (settled_functionTail ctx word name params behind).weaken
                  fun _ hlast => hlast.trans hbehind
              -- both ways to come by the parameters go on alike
              split
              all_goals
                refine settled_bind_any _ fun params? => ?_
                split
                · exact settled_pure hbehind
                · split
                  · exact settled_bind_any _ fun _ => htail _
                  · exact htail _

theorem settled_field (ctx : ParseContext) (word : Token) (tokens : List Token) :
    Settled (field ctx word tokens) (field ctx word tokens) (·.2 <:+ tokens) := by
  unfold field
  refine (settled_expect ctx .typeName tokens).bind fun found? hfound => ?_
  split
  · exact settled_pure (recover_suffix_of (List.suffix_refl tokens))
  · next type rest =>
      obtain rfl := hfound type rest rfl
      refine (settled_declTail ctx type rest).bind fun _ hbehind => ?_
      exact settled_pure ((hbehind.trans (List.tail_suffix rest)).trans (List.suffix_cons type rest))

/-- Whatever stands at the top of a unit, at least its first token is taken. -/
theorem settled_declaration (ctx : ParseContext) (t : Token) (rest : List Token) :
    Settled (declaration ctx t rest) (declaration ctx t rest) (·.2 <:+ rest) := by
  have hoff : recover rest <:+ rest := recover_suffix_of (List.suffix_refl rest)
  unfold declaration
  split
  next => exact (settled_function ctx t rest).bind fun _ hbehind => settled_pure hbehind
  next => exact (settled_field ctx t rest).bind fun _ hbehind => settled_pure hbehind
  next =>
    refine (settled_variable ctx t rest).bind fun _ hbehind => ?_
    exact settled_pure (hbehind.trans (List.tail_suffix rest))
  next => exact settled_pure (List.suffix_refl rest)
  case h_11 => exact settled_bind_any _ fun _ => settled_pure (recover_suffix (t :: rest))
  all_goals exact settled_bind_any _ fun _ => settled_pure hoff

/-- One round of the loop over the declarations of a unit, with the rounds behind it left open. -/
def declarationsWith (ctx : ParseContext) (below : List Token → Parsing (List Decl)) :
    List Token → Parsing (List Decl)
  | [] => return []
  | t :: rest => do
    let (decl?, rest) ← declaration ctx t rest
    return decl?.toList ++ (← below rest)

/-- The loop over the declarations ends after at most as many rounds as there are tokens. -/
theorem declarations_eq_iterate (ctx : ParseContext) {fuel rounds : Nat} {tokens : List Token}
    (hfuel : tokens.length ≤ fuel) (hrounds : tokens.length < rounds)
    (bottom : List Token → Parsing (List Decl)) :
    declarations ctx fuel tokens = (declarationsWith ctx)^[rounds] bottom tokens := by
  induction rounds generalizing fuel tokens with
  | zero => omega
  | succ rounds ih =>
      rw [Function.iterate_succ_apply']
      cases tokens with
      | nil => cases fuel <;> rfl
      | cons t rest =>
          rw [List.length_cons] at hfuel hrounds
          obtain ⟨fuel, rfl⟩ : ∃ n, fuel = n + 1 := ⟨fuel - 1, by omega⟩
          refine ((settled_declaration ctx t rest).bind (R := fun _ => True)
            fun (decl?, behind) hbehind => ?_).same
          have hlength : behind.length ≤ rest.length := hbehind.length_le
          dsimp only
          rw [ih (by omega) (by omega)]
          exact settled_self _

end Parsing

end TickScript
